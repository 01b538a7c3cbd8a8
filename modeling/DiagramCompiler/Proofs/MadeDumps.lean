import DiagramCompiler.Run
import DiagramCompiler.Proofs.Actions
import DiagramCompiler.Proofs.WrittenDumps

/-! Dumps that are made of formulas in files.
A formula is read from a file and may be ordered after that; a dump is made of it by an engine and
described. All that the dump then says of itself stands on lines of its own, if the path of the file
and the names of the engine and of its reordering have no line feeds. -/
namespace DiagramCompiler

/-- A formula as it was read from a path with some content, and perhaps ordered after that. -/
inductive Formula.IsReadFrom (input : Path) (parsed : Bytes) : Formula → Prop where
  | read {f : Formula} (hf : Dimacs.read parsed = .ok f) (later : Bytes) :
      IsReadFrom input parsed (f.readFrom input later)
  | ordered {f f' : Formula} {order : VariableOrder} (o : Options) (conditions : Conditions)
      (hf : IsReadFrom input parsed f) (hsorted : Run.sorted o f order = .ok f') :
      IsReadFrom input parsed (Run.ordered o conditions f')

/-- Whether an engine calls itself by names without line feeds. -/
def Manager.IsPlain {σ : Type} (m : Manager σ) : Prop :=
  '\n' ∉ m.name.toList ∧ '\n' ∉ m.stub.toList

/-- Whether the name of the dynamic reordering has no line feed and no slash. -/
def Options.IsPlain (o : Options) : Prop :=
  '\n' ∉ o.reordering.toList ∧ '/' ∉ o.reordering.toList

/-- A dump as an engine makes it of a formula. -/
inductive Run.Makes (o : Options) (f : Formula) : Dump → Prop where
  | compiled {σ : Type} {m : Manager σ} (hm : m.IsPlain) {order : Option VariableOrder}
      {s s' t t' : σ} {c : Compilation} {d : Dump}
      (hcompile : (Compilation.compile m f order).run s = (.ok c, s'))
      (hdump : (m.dump c.diagram).run t = (.ok d, t')) : Makes o f (Run.described o f c d)

namespace Dimacs.Reader

variable {r r' r'' : Reader}

theorem gather_of_some {tokens : List Token} (h : (takeLiterals r.tokens).2 = some tokens)
    (known : List Literal) :
    r.gather known =
      (.ok (some (.ofLiterals (known ++ (takeLiterals r.tokens).1))), r.withTokens tokens) := by
  rw [gather]
  split
  · next rest hrest => rw [Option.some.inj (hrest.symm.trans h)]
  · next hnone => exact absurd (hnone.symm.trans h) (by simp)

theorem gather_of_refill (h : (takeLiterals r.tokens).2 = none)
    (hfill : (r.withTokens []).refill = (.ok true, r')) (known : List Literal) :
    r.gather known = r'.gather (known ++ (takeLiterals r.tokens).1) := by
  rw [gather]
  split
  · next hsome => exact absurd (hsome.symm.trans h) (by simp)
  · split <;> simp_all

theorem gather_of_end (h : takeLiterals r.tokens = ([], none))
    (hfill : (r.withTokens []).refill = (.ok false, r')) : r.gather [] = (.ok none, r') := by
  rw [gather]
  split
  · next hsome => simp [h] at hsome
  · split <;> simp_all

theorem clauses_of_none (h : r.nextClause = (.ok none, r')) : r.clauses = (.ok [], r') := by
  rw [clauses]
  split <;> simp_all

theorem clauses_of_some {c : Clause} {cs : List Clause} (h : r.nextClause = (.ok (some c), r'))
    (h' : r'.clauses = (.ok cs, r'')) : r.clauses = (.ok (c :: cs), r'') := by
  rw [clauses]
  split <;> simp_all

end Dimacs.Reader

theorem Dimacs.read_of_no_clause {bytes : Bytes} {vars : Nat} {r r' : Reader}
    (hpreamble : (Reader.ofBytes bytes).readPreamble = (.ok ⟨vars, 0⟩, r))
    (hlast : r.nextClause = (.ok none, r')) (hnames : r'.descriptions = .empty) :
    read bytes = .ok (Formula.ofClauses vars []) := by
  rw [read, hpreamble]
  simp only [Reader.clauses_of_none hlast, hnames, Nat.not_lt_zero, if_false]
  rfl

theorem Formula.ofFile_of_read {fs : FileSystem} {input : Path} {content : Bytes} {g : Formula}
    (hread : fs.read input = .ok content) (hg : Dimacs.read content = .ok g) :
    Formula.ofFile input fs = .ok (g.readFrom input content) := by
  rw [ofFile, hread]
  simp only [ofContent, hg]

theorem Formula.exists_of_ofFile {fs : FileSystem} {input : Path} {f : Formula}
    (h : Formula.ofFile input fs = .ok f) :
    ∃ content g, fs.read input = .ok content ∧ Dimacs.read content = .ok g ∧
      f = g.readFrom input content := by
  rw [ofFile] at h
  split at h
  · next content hread =>
    rw [ofContent] at h
    split at h
    · next g hg => exact ⟨content, g, hread, hg, (Except.ok.inj h).symm⟩
    · exact absurd h (by simp)
  · split at h <;> exact absurd h (by simp)

theorem Formula.source_of_ofFile {fs : FileSystem} {input : Path} {f : Formula}
    (h : Formula.ofFile input fs = .ok f) : f.source = some input := by
  obtain ⟨content, g, -, -, rfl⟩ := Formula.exists_of_ofFile h
  rfl

theorem Duration.not_mem_secondsText (d : Duration) : '\n' ∉ d.secondsText.toList := by
  have hdecimal (n : Nat) : '\n' ∉ Numeral.decimal n := fun h =>
    absurd (Numeral.isDigit_decimal h) (by decide)
  simp [Duration.secondsText, hdecimal]

theorem Options.not_mem_stage (o : Options) : '\n' ∉ o.stage.toList ∧ '/' ∉ o.stage.toList := by
  cases hh : o.heuristic <;> cases hg : o.graph <;> simp only [Options.stage, hh, hg] <;> decide

theorem Dimacs.oneLine_of_read {content : Bytes} {f : Formula} (h : Dimacs.read content = .ok f) :
    ∀ e ∈ f.metadata.entries, Dump.OneLine e := by
  have hfresh (n : Nat) (cs : List Clause) :
      ∀ e ∈ (Formula.ofClauses n cs).metadata.entries, Dump.OneLine e := by
    intro e he
    rw [Formula.ofClauses] at he
    simp only at he
    split at he
    · exact absurd he (by simp [Dictionary.empty])
    · rcases Dictionary.mem_insertEntry he with rfl | he
      · exact .of_value (by decide) (Numeral.not_mem_text _ (by decide))
      · exact absurd he (by simp [Dictionary.empty])
  rw [Dimacs.read] at h
  split at h
  · exact absurd h (by simp)
  · split at h
    · exact absurd h (by simp)
    · split at h
      · exact absurd h (by simp)
      · next preamble _ _ _ _ clauses _ _ =>
        rw [← Except.ok.inj h]
        exact hfresh preamble.vars clauses

theorem Run.eq_or_permute_of_sorted {o : Options} {f f' : Formula} {order : VariableOrder}
    (h : Run.sorted o f order = .ok f') : f' = f ∨ ∃ positions, f' = f.permute positions := by
  have hinteraction (hsort : Interaction.sortClauses f = .ok f') :
      ∃ positions, f' = f.permute positions := by
    obtain ⟨g, positions, -, -, heq⟩ := Interaction.sortClauses_eq_ok_iff.1 hsort
    exact ⟨positions, heq.symm⟩
  rw [Run.sorted] at h
  split at h
  · rw [Options.sortClauses] at h
    split at h
    · exact .inl (Except.ok.inj h).symm
    · exact .inr ⟨_, (Except.ok.inj h).symm⟩
    · exact .inr ⟨_, (Except.ok.inj h).symm⟩
    · split at h
      · exact .inr (hinteraction h)
      · exact .inl (Except.ok.inj h).symm
  · exact .inl (Except.ok.inj h).symm

theorem Run.source_of_sorted {o : Options} {f f' : Formula} {order : VariableOrder}
    (h : Run.sorted o f order = .ok f') : f'.source = f.source := by
  rcases Run.eq_or_permute_of_sorted h with rfl | ⟨positions, rfl⟩ <;> rfl

/-- What is known of a formula that was read from a file has one line each, but for the path. -/
theorem Formula.IsReadFrom.eq_or_oneLine {input : Path} {parsed : Bytes} {f : Formula}
    (h : Formula.IsReadFrom input parsed f) :
    ∀ e ∈ f.metadata.entries, e = (Formula.nameKey, input.text) ∨ Dump.OneLine e := by
  induction h with
  | read hf later =>
    intro e he
    rcases Dictionary.mem_insertEntry he with rfl | he
    · exact .inr (.of_value (by decide) later.not_mem_digest)
    · rcases Dictionary.mem_insertEntry he with rfl | he
      · exact .inl rfl
      · exact .inr (Dimacs.oneLine_of_read hf e he)
  | @ordered f f' order o conditions _ hsorted ih =>
    have hmetadata : f'.metadata = f.metadata := by
      rcases Run.eq_or_permute_of_sorted hsorted with rfl | ⟨positions, rfl⟩ <;> rfl
    intro e he
    rcases Dictionary.mem_insertEntry he with rfl | he
    · exact .inr (.of_value (by decide) o.not_mem_stage.1)
    · rcases Dictionary.mem_insertEntry he with rfl | he
      · exact .inr (.of_value (by decide) conditions.searchTime.not_mem_secondsText)
      · exact ih e (hmetadata ▸ he)

theorem Formula.IsReadFrom.oneLine {input : Path} {parsed : Bytes} {f : Formula}
    (h : Formula.IsReadFrom input parsed f) (hinput : '\n' ∉ input.text.toList) :
    ∀ e ∈ f.metadata.entries, Dump.OneLine e := by
  intro e he
  rcases h.eq_or_oneLine e he with rfl | hline
  · exact .of_value (by decide) hinput
  · exact hline

theorem Compilation.oneLine_of_compile {σ : Type} {m : Manager σ} {f : Formula}
    {order : Option VariableOrder} {s s' : σ} {c : Compilation}
    (h : (Compilation.compile m f order).run s = (.ok c, s')) :
    ∀ e ∈ c.metadata.entries, Dump.OneLine e := by
  obtain ⟨-, _, -, h⟩ := Action.exists_of_run_bind h
  obtain ⟨started, _, -, h⟩ := Action.exists_of_run_bind h
  obtain ⟨accumulator, _, -, h⟩ := Action.exists_of_run_bind h
  obtain ⟨⟨diagram, skipped⟩, _, -, h⟩ := Action.exists_of_run_bind h
  obtain ⟨ended, _, -, h⟩ := Action.exists_of_run_bind h
  rw [Action.run_pure] at h
  rw [← Except.ok.inj (congrArg Prod.fst h)]
  intro e he
  rcases Dictionary.mem_insertAll he with he | he
  · simp only [List.mem_cons, List.not_mem_nil, or_false] at he
    rcases he with rfl | rfl | rfl
    · exact .of_value (by decide) (Duration.not_mem_secondsText _)
    · exact .of_value (by decide) (Numeral.not_mem_text _ (by decide))
    · exact .of_value (by decide) (Numeral.not_mem_text _ (by decide))
  · exact absurd he (by simp [Dictionary.empty])

theorem Manager.ofDiagram_of_dump {σ : Type} {m : Manager σ} {node : NodeRef} {s s' : σ} {d : Dump}
    (h : (m.dump node).run s = (.ok d, s')) :
    ∃ diagram, d = .ofDiagram m.name m.stub diagram := by
  obtain ⟨native, _, -, h⟩ := Action.exists_of_run_bind h
  have hanswer : m.dumpOf native = .ok d := congrArg Prod.fst h
  rw [Manager.dumpOf] at hanswer
  split at hanswer
  · exact absurd hanswer (by simp)
  · obtain ⟨nodes, -, hanswer⟩ := bind_eq_ok_iff.1 hanswer
    obtain ⟨order, -, hanswer⟩ := bind_eq_ok_iff.1 hanswer
    split at hanswer
    · exact absurd hanswer (by simp)
    · next diagram _ => exact ⟨diagram, (Except.ok.inj hanswer).symm⟩

/-- Nothing that a described dump says of itself has a line feed, if nothing that is known does. -/
theorem Run.plain_described {σ : Type} {m : Manager σ} (hm : m.IsPlain) {o : Options}
    (ho : o.IsPlain) {f : Formula} (hf : ∀ e ∈ f.metadata.entries, Dump.OneLine e) {c : Compilation}
    (hc : ∀ e ∈ c.metadata.entries, Dump.OneLine e) {node : NodeRef} {s s' : σ} {d : Dump}
    (hdump : (m.dump node).run s = (.ok d, s')) : (Run.described o f c d).Plain := by
  obtain ⟨diagram, rfl⟩ := Manager.ofDiagram_of_dump hdump
  have hversion : '\n' ∉ Dump.currentVersion.toList := by decide
  refine ⟨fun e he => ?_, hversion, hm.1, hm.2⟩
  rcases Dictionary.mem_insertEntry he with rfl | he
  · exact .of_value (by decide) ho.1
  · rcases Dictionary.mem_insertAll he with he | he
    · rcases List.mem_append.1 (List.mem_filter.1 he).1 with he | he
      · exact hf e he
      · exact hc e he
    · exact absurd he (by simp [Dump.ofDiagram, Dictionary.empty])

theorem Run.Makes.plain {o : Options} {f : Formula} {d : Dump} (h : Run.Makes o f d)
    (ho : o.IsPlain) (hf : ∀ e ∈ f.metadata.entries, Dump.OneLine e) : d.Plain := by
  obtain ⟨hm, hcompile, hdump⟩ := h
  exact plain_described hm ho hf (Compilation.oneLine_of_compile hcompile) hdump

end DiagramCompiler
