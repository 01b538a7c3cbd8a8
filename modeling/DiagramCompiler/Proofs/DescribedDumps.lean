import DiagramCompiler.Proofs.DumpRoundTrip
import DiagramCompiler.Proofs.EngineDumps
import DiagramCompiler.Proofs.MadeDumps
import DiagramCompiler.Proofs.TimedOutClauses

/-! Dumps that account for their formulas.
The dump of a compiled formula holds wherever the formula does, and nowhere else if no clause was
given up; it says how many were. It still does once it was tagged, written and read back, whatever
path it was tagged with, if that is on one line. -/
namespace DiagramCompiler

/-- Whether a dump accounts for a formula of which some clauses were given up: it says how many, and
it holds wherever the formula does, and nowhere else if there were none. -/
structure Dump.AccountsFor (d : Dump) (f : Formula) (skipped : Nat) : Prop where
  skipped_eq : d.metadata.get? Compilation.skippedKey = some (Numeral.text skipped)
  skipped_lt : skipped < UInt64.size
  covers (assignment : Nat → Bool) : f.eval assignment = true →
    d.diagram.eval assignment d.diagram.root = true
  eval_eq (assignment : Nat → Bool) : skipped = 0 →
    d.diagram.eval assignment d.diagram.root = f.eval assignment

theorem Cache.get?_tagged {d : Dump} {key value : String} (h : d.metadata.get? key = some value)
    (hname : Formula.nameKey ≠ key) (hdigest : Formula.digestKey ≠ key) (input : Path)
    (digest : String) : (tagged input digest d).metadata.get? key = some value := by
  rw [tagged, Dictionary.get?_insert, if_neg hdigest, Dictionary.get?_insert, if_neg hname, h]

/-- A report on a dump that says how many clauses were given up says so as well. -/
theorem Run.skipped_cachedReport_eq {d : Dump} {skipped : Nat}
    (h : d.metadata.get? Compilation.skippedKey = some (Numeral.text skipped))
    (hlt : skipped < UInt64.size) (path : Path) : (Run.cachedReport path d).skipped = skipped := by
  have hword : Numeral.word64 (Numeral.text skipped).toList = .ok skipped := by
    rw [Numeral.text, String.toList_ofList]
    exact Numeral.word64_decimal hlt
  rw [Run.cachedReport]
  simp only [h, hword]
  rfl

namespace Dump

variable {d d' : Dump} {f g : Formula} {skipped : Nat}

namespace AccountsFor

theorem congr (h : d.AccountsFor f skipped) (heval : f.eval = g.eval) : d.AccountsFor g skipped :=
  ⟨h.skipped_eq, h.skipped_lt, heval ▸ h.covers, heval ▸ h.eval_eq⟩

theorem skipped_cachedReport (h : d.AccountsFor f skipped) (path : Path) :
    (Run.cachedReport path d).skipped = skipped :=
  Run.skipped_cachedReport_eq h.skipped_eq h.skipped_lt path

theorem models (h : d.AccountsFor f skipped) {values : List Bool}
    (hvalues : values.length = f.varCount) :
    (f.eval? values = some true → d.diagram.holds values = true) ∧
      (skipped = 0 → f.eval? values = some (d.diagram.holds values)) := by
  rw [f.eval?_eq (Nat.le_of_eq hvalues.symm)]
  exact ⟨fun htrue => h.covers _ (Option.some.inj htrue),
    fun hzero => congrArg some (h.eval_eq _ hzero).symm⟩

end AccountsFor

/-! ### Dumps that are written and read back -/

def bare (d : Dump) : Dump := ⟨"", "", "", d.diagram, .empty⟩

theorem isValue_empty : IsValue "" := ⟨by decide, by simp⟩

theorem Fits.wellFormed_bare (h : d.Fits) : d.bare.WellFormed where
  diagram := d.diagram.wellFormed
  id_lt := h.id_lt
  length_lt := h.length_lt
  unreserved e he := absurd he (by simp [bare, Dictionary.empty])
  keys e he := absurd he (by simp [bare, Dictionary.empty])
  values e he := absurd he (by simp [bare, Dictionary.empty])
  toolVersion := isValue_empty
  engineName := isValue_empty
  engineStub := isValue_empty

theorem get?_header {key value : String} (h : (key, value) ∈
    [(toolVersionKey, d.toolVersion), (engineNameKey, d.engineName), (engineStubKey, d.engineStub),
      (nodeCountKey, Numeral.text d.diagram.nodeCount), (rootKey, d.diagram.root.text),
      (orderKey, d.diagram.order.text)]) : d.header.get? key = some value := by
  have hkeys : reservedKeys.Nodup := by decide
  refine Dictionary.get?_insertAll_of_mem d.metadata ?_ h
  exact hkeys

/-- A dump is read back with its diagram, if nothing that it says of itself has a line feed. -/
theorem Plain.exists_parse (hd : d.Plain) (hfits : d.Fits) :
    ∃ d', parse d.text = .ok d' ∧ d'.diagram = d.diagram := by
  have hbare := hfits.wellFormed_bare
  let header : Metadata := .ofList (d.header.entries.map fun e => (e.1, trimmedEnd e.2))
  have hget (key : String) : header.get? key = (d.header.get? key).map trimmedEnd :=
    Metadata.get?_ofList_map d.header trimmedEnd key
  have htrimmed {key value : String} (h : d.header.get? key = some value)
      (hvalue : ∀ c ∈ value.toList, Text.isBlank c = false) : header.get? key = some value := by
    rw [hget, h, Option.map_some, (isValue_of_isBlank hvalue).trimmedEnd_eq]
  have hname {key value : String} (h : d.header.get? key = some value) :
      header.get? key = some (trimmedEnd value) := by
    rw [hget, h, Option.map_some]
  have hcount : ∀ c ∈ (Numeral.text d.diagram.nodeCount).toList, Text.isBlank c = false := by
    rw [Numeral.text, String.toList_ofList]
    exact (Numeral.isWord_decimal _).2
  refine ⟨⟨trimmedEnd d.toolVersion, trimmedEnd d.engineName, trimmedEnd d.engineStub, d.diagram,
    reservedKeys.foldl Dictionary.erase header⟩, ?_, rfl⟩
  refine parse_eq_ok_iff.2 ⟨header, _, readHeader_text hd.header, {
    toolVersion := hname (get?_header (by simp))
    engineName := hname (get?_header (by simp))
    engineStub := hname (get?_header (by simp))
    root := ⟨_, htrimmed (get?_header (by simp)) d.diagram.root.isWord_text.2,
      Edge.parse_text (hbare.id_lt_of_resolves d.diagram.wellFormed.root_resolves)⟩
    order := ⟨_, htrimmed (get?_header (by simp)) fun _ => VariableOrder.isBlank_of_mem_text,
      VariableOrder.parse_text hfits.length_lt⟩
    nodes := by
      refine ⟨d.diagram.nodes, readNodes_text fun _ => hbare.fits, d.diagram.wellFormed.ofNodes_eq,
        Numeral.text d.diagram.nodeCount, htrimmed (get?_header (by simp)) hcount, ?_⟩
      rw [Numeral.text, String.toList_ofList]
      exact Numeral.word64_decimal hbare.nodeCount_lt
    metadata := rfl }⟩

/-- A dump that was tagged and written is read back, has the digest, and accounts for what it did
before. -/
theorem AccountsFor.exists_parse_tagged (h : d.AccountsFor f skipped) (hplain : d.Plain)
    (hfits : d.Fits) {input : Path} (hinput : '\n' ∉ input.text.toList) (content : Bytes) :
    ∃ d', parse (Cache.tagged input content.digest d).text = .ok d' ∧
      d'.metadata.get? Formula.digestKey = some content.digest ∧ d'.AccountsFor f skipped := by
  have hplain' := Cache.plain_tagged hplain hinput content
  have hfits' : (Cache.tagged input content.digest d).Fits := ⟨hfits.id_lt, hfits.length_lt⟩
  obtain ⟨d', hparse, hdiagram⟩ := hplain'.exists_parse hfits'
  have hskipped := Cache.get?_tagged h.skipped_eq (by decide) (by decide) input content.digest
  have hword : ∀ c ∈ (Numeral.text skipped).toList, Text.isBlank c = false := by
    rw [Numeral.text, String.toList_ofList]
    exact (Numeral.isWord_decimal _).2
  refine ⟨d', hparse, Cache.digest_of_parse_tagged hplain hinput hparse, ?_, h.skipped_lt, ?_, ?_⟩
  · rw [get?_of_parse_text hplain'.header hparse (by decide), hskipped, Option.map_some,
      (isValue_of_isBlank hword).trimmedEnd_eq]
  · rw [hdiagram]
    exact h.covers
  · rw [hdiagram]
    exact h.eval_eq

end Dump

/-! ### Dumps of compilations -/

/-- What a compilation says of itself stands in the dump, whatever the formula said before. -/
theorem Run.get?_described {c : Compilation} {key value : String}
    (h : c.metadata.get? key = some value) (hkey : Dump.isReserved key = false)
    (hreordering : reorderingKey ≠ key) (o : Options) (f : Formula) (d : Dump) :
    (Run.described o f c d).metadata.get? key = some value := by
  have hnodup : ((c.metadata.entries.filter fun e => !Dump.isReserved e.1).map Prod.fst).Nodup :=
    List.pairwise_map.2 ((c.metadata.ascending.filter _).imp fun {a b} hlt (heq : a.1 = b.1) =>
      String.lt_irrefl b.1 (heq ▸ hlt))
  have hmem : (key, value) ∈ c.metadata.entries.filter fun e => !Dump.isReserved e.1 :=
    List.mem_filter.2 ⟨Dictionary.mem_entries_iff.2 h, by simp [hkey]⟩
  rw [Run.described]
  simp only
  rw [Dictionary.get?_insert, if_neg hreordering, List.filter_append, Dictionary.insertAll,
    List.foldl_append]
  exact Dictionary.get?_insertAll_of_mem _ hnodup hmem

namespace Compilation

variable {σ : Type} {m : Manager σ} {C : m.engine.Contract} {s s' : σ} {refs : Multiset NodeRef}
  {f : Formula} {order : Option VariableOrder} {c : Compilation}

/-- A compiled formula has its record, whatever of the preparations may time out. -/
theorem accounts_of_compile (hs : C.holds s refs)
    (horder : ∀ o, order = some o → o.length = f.varCount)
    (h : (compile m f order).run s = (.ok c, s')) :
    ∃ log parts, Records (compile m.recorded f order) (compile m f order) s log ∧
      Accounts m (m.semantics C) refs f order c log parts s' := by
  rcases (prepare_does (m := m) hs f horder).cases with
    ⟨failure, s₁, log, hprepare, -⟩ | ⟨_, s₁, log₁, hprepare, hrecords₁, hworks₁, -, hholds₁⟩
  · rw [compile, Action.run_bind_of_error hprepare] at h
    exact absurd (congrArg Prod.fst h) (by simp)
  have hone : (m.semantics C).Does m.recorded.one m.one s₁ refs [.one]
      ((m.semantics C).Hands refs fun _ => true) :=
    Manager.does_of_recorded (C.one hholds₁) (fun _ => rfl) .one
  rcases hone.cases with ⟨failure, s₂, log₂, hone, -⟩ |
    ⟨accumulator, s₂, log₂, hone, hrecords₂, hworks₂, -, hholds₂, hmeaning⟩
  · rw [run_compile_of_error hprepare hone] at h
    exact absurd (congrArg Prod.fst h) (by simp)
  obtain ⟨answer, s₃, log₃, hconjoin, hrecords₃, -, hcomes⟩ :=
    conjoin_comesTo hholds₂ 0 fun c hc l hl => f.one_le_var hc (List.mem_map_of_mem hl)
  have hrun := run_compile_of_ok hprepare hone hconjoin
  rw [hmeaning] at hcomes
  obtain ⟨hanswer, rfl⟩ := Prod.mk.inj (hrun.symm.trans h)
  cases hcomes with
  | failed => exact absurd hanswer (by simp [Except.map])
  | @conjoined node parts hlog hconjoins =>
    obtain rfl := Except.ok.inj hanswer
    exact ⟨log₁ ++ log₂ ++ log₃, parts,
      records_compile hprepare hrecords₁ hone hrecords₂ hconjoin hrecords₃, ⟨log₁ ++ log₂,
        hworks₁.append hworks₂, by rw [hlog]⟩, hconjoins, Nat.zero_add _, get?_metadata_compiled _⟩

end Compilation

theorem Compilation.Accounts.accountsFor {σ : Type} {m : Manager σ} {C : m.engine.Contract}
    (hC : C.WritesDiagrams) {s s' : σ} {refs : Multiset NodeRef} {f : Formula}
    {order : Option VariableOrder} {c : Compilation} {log : List Performed}
    {parts : List (List Performed)}
    (h : Compilation.Accounts m (m.semantics C) refs f order c log parts s)
    (hf : f.clauses.length < UInt64.size) {d : Dump}
    (hdump : (m.dump c.diagram).run s = (.ok d, s')) (o : Options) :
    (Run.described o f c d).Fits ∧ (Run.described o f c d).AccountsFor f c.skipped := by
  obtain ⟨hfits, heval⟩ := Manager.eval_of_dump hC h.conjoins.holds (Multiset.mem_cons_self _ _) hdump
  have hmeaning (assignment : Nat → Bool) : d.diagram.eval assignment d.diagram.root =
      (keptClauses f.clauses parts).all (·.eval assignment) := by
    rw [heval, h.conjoins.meaning, Bool.true_and]
  have hlength : f.clauses.length = parts.length := h.conjoins.work.length_eq
  refine ⟨⟨hfits.id_lt, hfits.length_lt⟩, ?_, ?_, fun assignment htrue => ?_,
    fun assignment hzero => ?_⟩
  · exact Run.get?_described h.metadata (by decide) (by decide) o f d
  · rw [h.skipped]
    exact Nat.lt_of_le_of_lt (List.countP_le_length.trans_eq hlength.symm) hf
  · refine (hmeaning assignment).trans (List.all_eq_true.2 fun clause hclause => ?_)
    exact List.all_eq_true.1 htrue clause (Compilation.subset_of_keptClauses _ _ hclause)
  · refine (hmeaning assignment).trans ?_
    rw [Compilation.keptClauses_of_timeouts_eq_zero hlength (h.skipped.symm.trans hzero)]
    rfl

end DiagramCompiler
