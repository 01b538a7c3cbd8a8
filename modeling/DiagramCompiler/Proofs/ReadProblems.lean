import Mathlib
import DiagramCompiler.Proofs.ReadLines

/-! Problem files that are read.
A file is read exactly if the grammar of problem files allows it, and it is read as what it spells:
all its integers are cut into clauses at the zeros, and a variable has the name that a comment gave
it last. How the integers are spread over lines and what stands between them leaves no trace. -/
namespace DiagramCompiler
namespace Dimacs

/-! ### The problem line -/

theorem Reader.parseProblem_eq_ok_iff {text : List Char} {declared : Preamble} :
    parseProblem text = .ok declared ↔ IsProblem declared text := by
  constructor
  · intro h
    unfold parseProblem at h
    split at h
    · next tag format vars clauses hwords =>
      split at h
      · cases h
      · next htag =>
        split at h
        · cases h
        · next hformat =>
          split at h
          · cases h
          · next n hn =>
            split at h
            · cases h
            · next m hm =>
              cases h
              exact ⟨vars, clauses, by rw [hwords, not_not.1 htag, not_not.1 hformat]; rfl, hn, hm⟩
    · cases h
  · rintro ⟨vars, clauses, hwords, hn, hm⟩
    unfold parseProblem
    rw [hwords]
    simp [hn, hm]

theorem isBlank_of_head?_trim {text : List Char} {c : Char} (h : (Text.trim text).head? = some c) :
    Text.isBlank c = false := by
  have hstart : (Text.trimStart text).head? = some c := by
    have hend : Text.trim text <+: Text.trimStart text := by
      have hdrop := List.dropWhile_suffix Text.isBlank (l := (Text.trimStart text).reverse)
      rw [← List.reverse_prefix, List.reverse_reverse] at hdrop
      exact hdrop
    obtain ⟨rest, hrest⟩ := hend
    rw [← hrest, List.head?_append, h]
    rfl
  have hfirst := List.head?_dropWhile_not Text.isBlank text
  rw [Text.trimStart] at hstart
  rwa [hstart] at hfirst

theorem head?_of_words {c : Char} {cs : List Char} {w : List Char} {ws : List (List Char)}
    (hc : Text.isBlank c = false) (h : Text.words (c :: cs) = w :: ws) : w.head? = some c := by
  cases cs with
  | nil =>
    simp only [Text.words, hc] at h
    cases h
    rfl
  | cons d cs =>
    rw [Text.words, if_neg (by simp [hc])] at h
    split at h
    · cases h; rfl
    · split at h <;> (cases h; rfl)

theorem meaning_of_isProblem {raw : Bytes} {text : List Char} {declared : Preamble}
    (hraw : line? raw = some text) (h : IsProblem declared text) :
    meaning text = .content (.problem text) := by
  obtain ⟨vars, clauses, hwords, -⟩ := h
  obtain ⟨s, -, htrim⟩ := Option.map_eq_some_iff.1 hraw
  cases text with
  | nil => exact absurd hwords (by simp [Text.words])
  | cons c cs =>
    have hblank : Text.isBlank c = false := isBlank_of_head?_trim (by rw [htrim]; rfl)
    have hfirst := head?_of_words hblank hwords
    obtain rfl : c = 'p' := by simpa using hfirst.symm
    rfl

/-! ### Names of variables -/

theorem description?_eq_some_iff {comment : List Char} {var : Nat} {name : String} :
    description? comment = some (var, name) ↔ Names comment var name := by
  unfold description? Names
  constructor
  · intro h
    split at h
    · next number word others hwords =>
      split at h
      · next n hn =>
        split at h
        · next hpos =>
          cases h
          exact ⟨number, others, by rw [hwords]; simp, hn, hpos⟩
        · cases h
      · cases h
    · cases h
  · rintro ⟨number, others, hwords, hn, hpos⟩
    rw [hwords]
    simp [hn, hpos]

theorem namesLast_cons_iff {comment : List Char} {comments : List (List Char)} {var : Nat}
    {name : String} :
    NamesLast (comment :: comments) var name ↔ NamesLast comments var name ∨
      Names comment var name ∧ ∀ later ∈ comments, ∀ other, ¬ Names later var other := by
  constructor
  · rintro ⟨before, last, after, heq, hlast, hafter⟩
    cases before with
    | nil => cases heq; exact .inr ⟨hlast, hafter⟩
    | cons first before => cases heq; exact .inl ⟨before, last, after, rfl, hlast, hafter⟩
  · rintro (⟨before, last, after, rfl, hlast, hafter⟩ | ⟨hfirst, hafter⟩)
    · exact ⟨comment :: before, last, after, rfl, hlast, hafter⟩
    · exact ⟨[], comment, comments, rfl, hfirst, hafter⟩

/-- The name of a variable is the one that it was given last. -/
theorem get?_described {texts : List (List Char)} {var : Nat} {name : String} :
    (described .empty texts).get? var = some name ↔
      NamesLast (texts.filterMap comment?) var name := by
  have hall (comments : List (List Char)) (names : Dictionary Nat String) :
      (comments.foldl withComment names).get? var = some name ↔
        NamesLast comments var name ∨
          (∀ later ∈ comments, ∀ other, ¬ Names later var other) ∧
            names.get? var = some name := by
    induction comments generalizing names with
    | nil => simp [NamesLast]
    | cons comment comments ih =>
      rw [List.foldl_cons, ih, namesLast_cons_iff, withComment]
      cases hcomment : description? comment with
      | none =>
        have hnot (other : String) : ¬ Names comment var other := fun h =>
          absurd (hcomment.symm.trans (description?_eq_some_iff.2 h)) (by simp)
        simp [hnot]
      | some given =>
        obtain ⟨var', name'⟩ := given
        have hiff (other : String) : Names comment var other ↔ var' = var ∧ name' = other := by
          rw [← description?_eq_some_iff, hcomment]
          simp
        by_cases hvar : var' = var
        · subst hvar
          have hgiven : ¬ ∀ other, ¬ name' = other := fun h => h name' rfl
          simp only [hiff, Dictionary.get?_insert, if_true, Option.some.injEq, true_and,
            List.mem_cons, forall_eq_or_imp, hgiven, false_and, or_false]
          rw [and_comm (a := name' = name)]
        · simp [hiff, hvar, Dictionary.get?_insert]
  rw [described, hall]
  simp [Dictionary.empty, Dictionary.get?]

/-! ### Whole files -/

theorem exists_of_readPreamble {bytes : Bytes} {declared : Preamble} {r : Reader}
    (h : (Reader.ofBytes bytes).readPreamble = (.ok declared, r)) :
    ∃ texts problem, linesOf bytes = texts.map some ++ some problem :: r.pending.map line? ∧
      contents texts = [] ∧ HasContent problem ∧ IsProblem declared problem ∧
        r.exhausted = false ∧ r.preamble.isSome := by
  have hkept := Reader.exhausted_nextLine (Reader.ofBytes bytes)
  rw [Reader.readPreamble] at h
  simp only [Reader.ofBytes] at h
  split at h
  · cases h
  · cases h
  · next text r₁ hnext =>
    split at h
    · cases h
    · next p hp =>
      cases h
      obtain ⟨texts, hnone, problem, hlines, hcontent, hmeaning⟩ := Reader.exists_of_scan hnext
      obtain rfl := meaning_eq_problem hmeaning
      have hexhausted : r₁.exhausted = false :=
        (congrArg (Reader.exhausted ·.2) hnext).symm.trans hkept
      exact ⟨texts, _, hlines, hnone, hcontent, Reader.parseProblem_eq_ok_iff.1 hp, hexhausted, rfl⟩
  · cases h

theorem readPreamble_of_isProblem {bytes : Bytes} {declared : Preamble}
    {texts rest : List (List Char)} {problem : List Char} {unread : List (Option (List Char))}
    (hlines : linesOf bytes = texts.map some ++ unread)
    (hcontents : contents texts = problem :: rest) (hproblem : IsProblem declared problem) :
    ∃ before after r, texts = before ++ problem :: after ∧ contents after = rest ∧
      (Reader.ofBytes bytes).readPreamble = (.ok declared, r) ∧
      r.pending.map line? = after.map some ++ unread ∧ r.tokens = [] ∧ r.exhausted = false ∧
        r.preamble.isSome ∧ r.descriptions = described .empty (before ++ [problem]) := by
  obtain ⟨raw, -, hraw⟩ : ∃ raw ∈ Text.splitEnded 10 bytes, line? raw = some problem := by
    obtain ⟨before, after, rfl, -⟩ := contents_eq_cons_iff.1 hcontents
    have hmem : some problem ∈ linesOf bytes := by simp [hlines]
    exact List.mem_map.1 hmem
  obtain ⟨before, after, pending, htexts, hafter, hpending, hnext⟩ :=
    Reader.nextLine_of_contents (r := .ofBytes bytes) hlines hcontents
      (meaning_of_isProblem hraw hproblem)
  refine ⟨before, after,
    { (Reader.ofBytes bytes).pass (before ++ [problem]) pending with preamble := declared },
    htexts, hafter, ?_, hpending, rfl, rfl, rfl, rfl⟩
  rw [Reader.readPreamble]
  simp only [Reader.ofBytes] at hnext ⊢
  rw [hnext]
  simp only [Reader.parseProblem_eq_ok_iff.2 hproblem]

theorem read_of_spells {bytes : Bytes} {s : Script} (h : Spells bytes s)
    (hfits : s.declared.clauses ≤ Memory.maxClauses) :
    ∃ cs names, List.Forall₂ (fun piece c => Clause.ofInts? piece = some c)
        (Text.splitEnded 0 s.integers) cs ∧
      (∀ var name, names.get? var = some name ↔ NamesLast s.comments var name) ∧
      read bytes = .ok { Formula.ofClauses s.declared.vars cs with descriptions := names } := by
  obtain ⟨texts, unread, problem, body, lists, ending, hlines, hcontents, hproblem, hbody, hending,
    hintegers, hcomments⟩ := h
  obtain ⟨before, after, r, rfl, hafter, hpreamble, hpending, htokens, hexhausted, hsome, hnames⟩ :=
    readPreamble_of_isProblem hlines hcontents hproblem
  have hwhole : Ending ((before ++ [problem]) ++ after) ending unread := by simpa using hending
  have hlater : Ending after ending unread := hwhole.of_append hafter
  obtain ⟨tokens, r', hdrain, hread, hnames'⟩ := Reader.drain_of_continues (r := r) hexhausted
    ⟨unread, body, lists, ending, hpending, hafter, hbody, hlater, rfl⟩
  have hclauses : r.clauses = (.ok (cut [] tokens), r') := by
    rw [Reader.clauses_eq_clausesFrom hsome, Reader.clausesFrom_eq [] r hsome, hdrain, htokens]
    rfl
  refine ⟨cut [] tokens, r'.descriptions, ?_, fun var name => ?_, ?_⟩
  · rw [hintegers]
    exact cut_of_ofInt? .nil List.not_mem_nil hread
  · rw [hnames', hnames, described_append, get?_described, hcomments]
    simp
  · rw [read, hpreamble]
    simp only [if_neg (Nat.not_lt.2 hfits), hclauses]

theorem exists_spells {bytes : Bytes} {f : Formula} (h : read bytes = .ok f) :
    ∃ s, Spells bytes s := by
  rw [read] at h
  split at h
  · cases h
  · next declared r hpreamble =>
    split at h
    · cases h
    · split at h
      · cases h
      · next cs r' hclauses =>
        obtain ⟨texts, problem, hlines, hnone, hcontent, hproblem, hexhausted, hsome⟩ :=
          exists_of_readPreamble hpreamble
        obtain ⟨tokens, htokens⟩ : ∃ tokens, r.drain.1 = .ok tokens := by
          rw [Reader.clauses_eq_clausesFrom hsome, Reader.clausesFrom_eq [] r hsome] at hclauses
          cases hdrain : r.drain.1 with
          | error fault => rw [hdrain] at hclauses; cases hclauses
          | ok tokens => exact ⟨tokens, rfl⟩
        obtain ⟨texts', is, unread, body, lists, ending, hlines', hcontents, hbody, hending, -⟩ :=
          Reader.continues_of_drain hexhausted
            (Prod.ext htokens rfl : r.drain = (.ok tokens, r.drain.2))
        refine ⟨⟨declared, lists.flatten, (texts ++ problem :: texts').filterMap comment?⟩,
          texts ++ problem :: texts', unread, problem, body, lists, ending, ?_, ?_, hproblem, hbody,
          ?_, rfl, rfl⟩
        · rw [hlines, hlines']
          simp
        · exact contents_eq_cons_iff.2 ⟨texts, texts', rfl, hnone, hcontent, hcontents⟩
        · simpa using hending.append (texts ++ [problem])

/-! ### Memory -/

section Memory

variable {r r' : Reader} {fault : Fault} (n : Nat)

theorem ne_tooManyClauses_of_scan {lines : List Bytes}
    (h : Reader.scan lines r = (.error fault, r')) : fault ≠ .tooManyClauses n := by
  fun_induction Reader.scan lines r with
  | case1 => cases h
  | case2 => cases h; simp
  | case3 _ _ _ _ _ _ _ ih => exact ih h
  | case4 _ _ _ _ _ _ _ _ ih => exact ih h
  | case5 => cases h

theorem ne_tooManyClauses_of_parseTokens {line : Nat} {ws : List (List Char)}
    (h : ws.mapM (Reader.parseToken line) = .error fault) : fault ≠ .tooManyClauses n := by
  induction ws with
  | nil => cases h
  | cons word ws ih =>
    rw [List.mapM_cons] at h
    cases hfirst : Reader.parseToken line word with
    | error other =>
      rw [hfirst] at h
      cases h
      unfold Reader.parseToken at hfirst
      split at hfirst
      · cases hfirst; simp
      · split at hfirst
        · cases hfirst
        · split at hfirst <;> cases hfirst
          simp
    | ok token =>
      rw [hfirst] at h
      cases hrest : ws.mapM (Reader.parseToken line) with
      | error other => rw [hrest] at h; cases h; exact ih hrest
      | ok tokens => rw [hrest] at h; cases h

theorem ne_tooManyClauses_of_refill (h : r.refill = (.error fault, r')) :
    fault ≠ .tooManyClauses n := by
  rw [Reader.refill] at h
  split at h
  · cases h
  · split at h
    · next hnext => cases h; exact ne_tooManyClauses_of_scan n hnext
    · cases h
    · cases h; simp
    · split at h
      · next htokens => cases h; exact ne_tooManyClauses_of_parseTokens n htokens
      · cases h
    · split at h
      · next hnext => cases h; exact ne_tooManyClauses_of_scan n hnext
      · cases h
      · split at h <;> cases h
        simp

theorem ne_tooManyClauses_of_drain (h : r.drain.1 = .error fault) : fault ≠ .tooManyClauses n := by
  fun_induction Reader.drain r with
  | case1 r other r' hfill => cases h; exact ne_tooManyClauses_of_refill n hfill
  | case2 => cases h
  | case3 => cases h
  | case4 r r₁ hfill other r₂ hrest ih => cases h; exact ih (by rw [hrest])

theorem ne_tooManyClauses_of_readPreamble (h : r.readPreamble = (.error fault, r')) :
    fault ≠ .tooManyClauses n := by
  rw [Reader.readPreamble] at h
  split at h
  · cases h
  · split at h
    · next hnext => cases h; exact ne_tooManyClauses_of_scan n hnext
    · cases h; simp
    · split at h <;> cases h
      simp
    · cases h; simp

end Memory

/-- Reading is given up for lack of memory only if too many clauses are declared. -/
theorem exists_declares_of_tooManyClauses {bytes : Bytes} {n : Nat}
    (h : read bytes = .error (.tooManyClauses n)) :
    ∃ declared, Declares bytes declared ∧ declared.clauses = n ∧ Memory.maxClauses < n := by
  rw [read] at h
  split at h
  · next hpreamble => cases h; exact absurd rfl (ne_tooManyClauses_of_readPreamble n hpreamble)
  · next declared r hpreamble =>
    obtain ⟨texts, problem, hlines, hnone, hcontent, hproblem, hexhausted, hsome⟩ :=
      exists_of_readPreamble hpreamble
    split at h
    · next hmore =>
      cases h
      refine ⟨declared, ⟨texts ++ [problem], r.pending.map line?, problem, ?_, ?_, hproblem⟩, rfl,
        hmore⟩
      · rw [hlines]
        simp
      · exact contents_eq_cons_iff.2 ⟨texts, [], rfl, hnone, hcontent, rfl⟩
    · split at h
      · next hclauses =>
        cases h
        rw [Reader.clauses_eq_clausesFrom hsome, Reader.clausesFrom_eq [] r hsome] at hclauses
        cases hdrain : r.drain.1 with
        | error fault =>
          rw [hdrain] at hclauses
          cases hclauses
          exact absurd rfl (ne_tooManyClauses_of_drain n hdrain)
        | ok tokens => rw [hdrain] at hclauses; cases hclauses
      · cases h

theorem Spells.declares {bytes : Bytes} {s : Script} (h : Spells bytes s) :
    Declares bytes s.declared := by
  obtain ⟨texts, unread, problem, body, lists, ending, hlines, hcontents, hproblem, -⟩ := h
  obtain ⟨before, after, rfl, hbefore, hcontent, -⟩ := contents_eq_cons_iff.1 hcontents
  exact ⟨before ++ [problem], after.map some ++ unread, problem, by simpa using hlines,
    contents_eq_cons_iff.2 ⟨before, [], rfl, hbefore, hcontent, rfl⟩, hproblem⟩

theorem Declares.exists_readPreamble {bytes : Bytes} {declared : Preamble}
    (h : Declares bytes declared) :
    ∃ r, (Reader.ofBytes bytes).readPreamble = (.ok declared, r) := by
  obtain ⟨texts, unread, problem, hlines, hcontents, hproblem⟩ := h
  obtain ⟨-, -, r, -, -, hpreamble, -⟩ := readPreamble_of_isProblem hlines hcontents hproblem
  exact ⟨r, hpreamble⟩

theorem read_eq_of_spells {bytes : Bytes} {s : Script} {f : Formula} (hread : read bytes = .ok f)
    (h : Spells bytes s) :
    ∃ cs, List.Forall₂ (fun piece c => Clause.ofInts? piece = some c)
        (Text.splitEnded 0 s.integers) cs ∧
      f = { Formula.ofClauses s.declared.vars cs with descriptions := f.descriptions } ∧
      ∀ var name, f.descriptions.get? var = some name ↔ NamesLast s.comments var name := by
  have hfits : s.declared.clauses ≤ Memory.maxClauses := by
    refine Nat.le_of_not_lt fun hmore => ?_
    obtain ⟨r, hpreamble⟩ := h.declares.exists_readPreamble
    rw [read, hpreamble] at hread
    simp only [if_pos hmore] at hread
    cases hread
  obtain ⟨cs, names, hcs, hnames, hok⟩ := read_of_spells h hfits
  obtain rfl := Except.ok.inj (hread.symm.trans hok)
  exact ⟨cs, hcs, rfl, hnames⟩

theorem clauses_eq_of_integers {bytes bytes' : Bytes} {s s' : Script} {f f' : Formula}
    (hread : read bytes = .ok f) (hread' : read bytes' = .ok f') (h : Spells bytes s)
    (h' : Spells bytes' s') (hvars : s.declared.vars = s'.declared.vars)
    (hintegers : s.integers = s'.integers) : f.clauses = f'.clauses ∧ f.varCount = f'.varCount := by
  obtain ⟨cs, hcs, hf, -⟩ := read_eq_of_spells hread h
  obtain ⟨cs', hcs', hf', -⟩ := read_eq_of_spells hread' h'
  have hunique : Relator.RightUnique fun (piece : List Int) (c : Clause) =>
      Clause.ofInts? piece = some c :=
    fun _ _ _ hc hc' => Option.some.inj (hc.symm.trans hc')
  have hsame : cs = cs' := hunique.forall₂ hcs (hintegers ▸ hcs')
  rw [hf, hf', hvars, hsame]
  exact ⟨rfl, rfl⟩

/-- A file can be read exactly if it is spelled as it should be, and it is read as what it spells:
the clauses are the pieces between the zeros of all its integers, whatever lines they stand on, and
a variable has the name that a comment gave it last. No file makes reading run out of memory but by
the number of clauses that it declares. -/
theorem read_spelled (bytes : Bytes)
    (hmemory : ∀ declared, Declares bytes declared → 24 * declared.clauses ≤ 2 ^ 63 - 1) :
    ((∃ f, read bytes = .ok f) ↔ ∃ s, Spells bytes s) ∧
      (∀ f s, read bytes = .ok f → Spells bytes s →
        (∃ cs, List.Forall₂ (fun piece c => Clause.ofInts? piece = some c)
              (Text.splitEnded 0 s.integers) cs ∧
            f = { Formula.ofClauses s.declared.vars cs with descriptions := f.descriptions }) ∧
          (∀ var name, f.descriptions.get? var = some name ↔ NamesLast s.comments var name) ∧
          ∀ other f' s', read other = .ok f' → Spells other s' →
            s.declared.vars = s'.declared.vars → s.integers = s'.integers →
            f.clauses = f'.clauses ∧ f.varCount = f'.varCount) ∧
      ∀ n, read bytes ≠ .error (.tooManyClauses n) := by
  have hfits {declared : Preamble} (h : Declares bytes declared) :
      declared.clauses ≤ Memory.maxClauses := by
    have hle := hmemory declared h
    rw [Memory.maxClauses, Memory.limit]
    omega
  refine ⟨⟨fun ⟨f, hread⟩ => exists_spells hread, fun ⟨s, hs⟩ => ?_⟩, fun f s hread hs => ?_,
    fun n hread => ?_⟩
  · obtain ⟨cs, names, -, -, hok⟩ := read_of_spells hs (hfits hs.declares)
    exact ⟨_, hok⟩
  · obtain ⟨cs, hcs, hf, hnames⟩ := read_eq_of_spells hread hs
    exact ⟨⟨cs, hcs, hf⟩, hnames, fun other f' s' hread' hs' =>
      clauses_eq_of_integers hread hread' hs hs'⟩
  · obtain ⟨declared, hdeclared, rfl, hmore⟩ := exists_declares_of_tooManyClauses hread
    exact absurd (hfits hdeclared) (Nat.not_le.2 hmore)

namespace Scattered

/-- A clause over two lines with a comment between them, the next one begun on the second of these,
and bytes that are no text after the end. -/
def bytes : Bytes :=
  Bytes.ofText "c 1 first\np cnf 3 2\n1 -2\nc 1 second\n 0 2\n\n3 0\n%\n0\n" ++ [255]

def script : Script where
  declared := ⟨3, 2⟩
  integers := [1, -2, 0, 2, 3, 0]
  comments := [" 1 first".toList, " 1 second".toList]

def texts : List (List Char) :=
  ["c 1 first", "p cnf 3 2", "1 -2", "c 1 second", "0 2", "", "3 0", "%", "0"].map String.toList

theorem linesOf_bytes : linesOf bytes = texts.map some ++ [none] := by cbv

theorem forall₂_isIntegers : List.Forall₂ IsIntegers (["1 -2", "0 2", "3 0"].map String.toList)
    [[1, -2], [0, 2], [3, 0]] := by
  have hwords (a b : List Char) {i j : Int} {text : List Char} (htext : Text.words text = [a, b])
      (hhead : text.head? ≠ some 'p') (ha : IsInteger a i) (hb : IsInteger b j) :
      IsIntegers text [i, j] := ⟨hhead, htext ▸ .cons ha (.cons hb .nil)⟩
  refine .cons (hwords ['1'] ['-', '2'] ?_ ?_ ⟨?_, ?_⟩ ⟨?_, ?_⟩)
    (.cons (hwords ['0'] ['2'] ?_ ?_ ⟨?_, ?_⟩ ⟨?_, ?_⟩)
      (.cons (hwords ['3'] ['0'] ?_ ?_ ⟨?_, ?_⟩ ⟨?_, ?_⟩) .nil))
  all_goals decide

theorem spells_script : Spells bytes script := by
  refine ⟨texts, [none], "p cnf 3 2".toList, ["1 -2", "0 2", "3 0"].map String.toList,
    [[1, -2], [0, 2], [3, 0]], [['%'], ['0']], linesOf_bytes, ?_, ?_, forall₂_isIntegers, ?_, ?_,
    ?_⟩
  · decide
  · exact ⟨['3'], ['2'], by decide, by decide, by decide⟩
  · exact .closed (by decide) _
  · rfl
  · decide

/-- The scattered clauses are read whole, and the later name stands. -/
theorem read_scattered :
    (∀ declared, Declares bytes declared → 24 * declared.clauses ≤ 2 ^ 63 - 1) ∧
      Spells bytes script ∧
      ∃ f, read bytes = .ok f ∧
        f.clauses = [.ofLiterals [.ofVar 1 true, .ofVar 2 false],
          .ofLiterals [.ofVar 2 true, .ofVar 3 true]] ∧
        f.description? 1 = some "second" := by
  have hdeclared : (Reader.ofBytes bytes).readPreamble.1 = .ok ⟨3, 2⟩ := by cbv
  have hmemory : ∀ declared, Declares bytes declared → 24 * declared.clauses ≤ 2 ^ 63 - 1 := by
    intro declared h
    obtain ⟨r, hr⟩ := h.exists_readPreamble
    rw [hr] at hdeclared
    obtain rfl := Except.ok.inj hdeclared
    decide
  have hread := read_spelled bytes hmemory
  obtain ⟨f, hf⟩ := hread.1.2 ⟨script, spells_script⟩
  obtain ⟨⟨cs, hcs, heq⟩, hnames, -⟩ := hread.2.1 f script hf spells_script
  have hpieces : Text.splitEnded 0 script.integers = [[1, -2], [2, 3]] := by decide
  rw [hpieces] at hcs
  obtain ⟨c, rest, hc, hrest, rfl⟩ := List.forall₂_cons_left_iff.1 hcs
  obtain ⟨d, last, hd, hlast, rfl⟩ := List.forall₂_cons_left_iff.1 hrest
  obtain rfl := List.forall₂_nil_left_iff.1 hlast
  refine ⟨hmemory, spells_script, f, hf, ?_, (hnames 1 "second").2 ?_⟩
  · rw [heq, ← Option.some.inj hc, ← Option.some.inj hd]
    rfl
  · exact ⟨[" 1 first".toList], " 1 second".toList, [], rfl,
      ⟨['1'], [], by decide, by decide, by decide⟩, by simp⟩

end Scattered

end Dimacs
end DiagramCompiler
