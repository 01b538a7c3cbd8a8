import DiagramCompiler.Failure
import DiagramCompiler.Proofs.Dictionaries
import DiagramCompiler.Proofs.ReadProblems

/-! Other numbers of clauses.
The number of clauses that a problem line declares is not compared with the clauses that follow, so
that files which are alike but for this number are read alike. It matters for one thing only: as
much memory is reserved as that many clauses take up, and if there cannot be so much the reading
ends there, whatever clauses the file has. -/
namespace DiagramCompiler
namespace Dimacs

/-- Whether a line begins as a problem line does, and has four fields, the last of which is a number
of clauses. -/
def Counts (tag format vars : List Char) (m : Nat) (text : List Char) : Prop :=
  text.head? = some 'p' ∧
    ∃ count, Text.words text = [tag, format, vars, count] ∧ Numeral.word64 count = .ok m

/-- Whether two files are alike but for the number of clauses in a problem line, wherever it stands
and whether or not it is well-formed. -/
def Redeclared (bytes bytes' : Bytes) : Prop :=
  ∃ before text text' after tag format vars m m',
    linesOf bytes = before ++ some text :: after ∧ linesOf bytes' = before ++ some text' :: after ∧
      Counts tag format vars m text ∧ Counts tag format vars m' text'

variable {bytes bytes' : Bytes} {m m' : Nat} {text text' tag format vars : List Char}

theorem Counts.hasContent (h : Counts tag format vars m text) : HasContent text := by
  obtain ⟨rest, rfl⟩ := List.head?_eq_some_iff.1 h.1
  simp [HasContent]

theorem Counts.isProblem {declared : Preamble} (h : Counts tag format vars m text)
    (h' : Counts tag format vars m' text') (hproblem : IsProblem declared text) :
    IsProblem ⟨declared.vars, m'⟩ text' := by
  obtain ⟨-, count, hwords, -⟩ := h
  obtain ⟨-, count', hwords', hcount'⟩ := h'
  obtain ⟨others, last, hfields, hothers, -⟩ := hproblem
  rw [hwords] at hfields
  simp only [List.cons.injEq, and_true] at hfields
  obtain ⟨rfl, rfl, rfl, -⟩ := hfields
  exact ⟨vars, count', hwords', hothers, hcount'⟩

theorem Redeclared.symm (h : Redeclared bytes bytes') : Redeclared bytes' bytes := by
  obtain ⟨before, text, text', after, tag, format, vars, m, m', hlines, hlines', htext, htext'⟩ := h
  exact ⟨before, text', text, after, tag, format, vars, m', m, hlines', hlines, htext', htext⟩

theorem head?_ne_of_mem {texts body ending : List (List Char)} {lists : List (List Int)}
    {unread : List (Option (List Char))} (hbody : List.Forall₂ IsIntegers body lists)
    (hending : Ending texts ending unread) (hmem : text ∈ body ++ ending) :
    text.head? ≠ some 'p' := by
  rcases List.mem_append.1 hmem with hline | hmem
  · clear hending hmem
    induction hbody with
    | nil => exact absurd hline List.not_mem_nil
    | cons hfirst _ ih =>
      rcases List.mem_cons.1 hline with rfl | hline
      · exact hfirst.1
      · exact ih hline
  · cases hending with
    | plain => exact absurd hmem List.not_mem_nil
    | trailer =>
      obtain rfl := List.mem_singleton.1 hmem
      decide
    | closed => rcases List.mem_pair.1 hmem with rfl | rfl <;> decide

theorem split_cases {before after unread : List (Option (List Char))} {texts : List (List Char)}
    (h : before ++ some text :: after = texts.map some ++ unread) :
    (∃ front back, texts = front ++ text :: back ∧ before = front.map some ∧
      after = back.map some ++ unread) ∨
      ∃ between, before = texts.map some ++ between ∧ unread = between ++ some text :: after := by
  rcases List.append_eq_append_iff.1 h with ⟨between, htexts, htail⟩ | ⟨between, hbefore, hunread⟩
  · cases between with
    | nil => exact .inr ⟨[], by simpa using htexts.symm, by simpa using htail.symm⟩
    | cons line between =>
      obtain ⟨rfl, hafter⟩ := List.cons.inj htail
      obtain ⟨front, rest, rfl, rfl, hrest⟩ := List.map_eq_append_iff.1 htexts
      obtain ⟨other, back, rfl, hother, rfl⟩ := List.map_eq_cons_iff.1 hrest
      obtain rfl := Option.some.inj hother
      exact .inl ⟨front, back, rfl, rfl, hafter⟩
  · exact .inr ⟨between, hbefore, hunread⟩

/-- A line that is read and begins as a problem line is the first one that counts. -/
theorem eq_problem_of_mem {front back body ending : List (List Char)} {lists : List (List Int)}
    {unread : List (Option (List Char))} {texts : List (List Char)} {problem : List Char}
    (hbody : List.Forall₂ IsIntegers body lists) (hending : Ending texts ending unread)
    (hcontent : HasContent text) (hhead : text.head? = some 'p')
    (hcontents : contents (front ++ text :: back) = problem :: (body ++ ending)) :
    contents front = [] ∧ problem = text ∧ contents back = body ++ ending := by
  have hkept : contents (text :: back) = text :: contents back :=
    List.filter_cons_of_pos (p := (HasContent ·)) (decide_eq_true hcontent)
  rw [contents_append, hkept] at hcontents
  cases hfront : contents front with
  | nil =>
    rw [hfront] at hcontents
    obtain ⟨hproblem, hback⟩ := List.cons.inj hcontents
    exact ⟨rfl, hproblem.symm, hback⟩
  | cons first rest =>
    rw [hfront] at hcontents
    have hmem : text ∈ body ++ ending := (List.cons.inj hcontents).2 ▸ by simp
    exact absurd hhead (head?_ne_of_mem hbody hending hmem)

theorem Ending.of_unread {texts ending : List (List Char)}
    {between after after' : List (Option (List Char))} {line line' : Option (List Char)}
    (h : Ending texts ending (between ++ line :: after)) :
    Ending texts ending (between ++ line' :: after') := by
  generalize hunread : between ++ line :: after = unread at h
  cases h with
  | plain => exact absurd hunread (by simp)
  | trailer => exact absurd hunread (by simp)
  | closed hlast => exact .closed hlast _

/-- The other file spells the same but for the number of clauses. -/
theorem Redeclared.exists_spells (h : Redeclared bytes bytes') {s : Script} (hs : Spells bytes s) :
    ∃ s', Spells bytes' s' ∧ s'.declared.vars = s.declared.vars ∧ s'.integers = s.integers ∧
      s'.comments = s.comments := by
  obtain ⟨before, text, text', after, tag, format, vars, m, m', hfile, hfile', htext, htext'⟩ := h
  obtain ⟨texts, unread, problem, body, lists, ending, hlines, hcontents, hproblem, hbody, hending,
    hintegers, hcomments⟩ := hs
  rcases split_cases (hfile.symm.trans hlines) with
    ⟨front, back, rfl, rfl, rfl⟩ | ⟨between, rfl, rfl⟩
  · obtain ⟨hfront, rfl, hback⟩ :=
      eq_problem_of_mem hbody hending htext.hasContent htext.1 hcontents
    have hnone : comment? problem = none := (exists_content htext.hasContent).choose_spec.2
    have hnone' : comment? text' = none := (exists_content htext'.hasContent).choose_spec.2
    have hwhole : Ending ((front ++ [problem]) ++ back) ending unread := by simpa using hending
    have hlater : Ending back ending unread := hwhole.of_append hback
    refine ⟨{ s with declared := ⟨s.declared.vars, m'⟩ },
      ⟨front ++ text' :: back, unread, text', body, lists, ending, by simpa using hfile',
        contents_eq_cons_iff.2 ⟨front, back, rfl, hfront, htext'.hasContent, hback⟩,
        htext.isProblem htext' hproblem, hbody, ?_, hintegers, ?_⟩, rfl, rfl, rfl⟩
    · simpa using hlater.append (front ++ [text'])
    · simp [hcomments, hnone, hnone']
  · exact ⟨s, ⟨texts, between ++ some text' :: after, problem, body, lists, ending,
      by simpa using hfile', hcontents, hproblem, hbody, hending.of_unread, hintegers, hcomments⟩,
      rfl, rfl, rfl⟩

/-- Reading ends for lack of memory exactly if too many clauses are declared. -/
theorem read_eq_tooManyClauses_iff {n : Nat} :
    read bytes = .error (.tooManyClauses n) ↔
      Memory.maxClauses < n ∧ ∃ vars, Declares bytes ⟨vars, n⟩ := by
  constructor
  · intro h
    obtain ⟨⟨vars, clauses⟩, hdeclared, rfl, hmore⟩ := exists_declares_of_tooManyClauses h
    exact ⟨hmore, vars, hdeclared⟩
  · rintro ⟨hmore, vars, hdeclared⟩
    obtain ⟨r, hpreamble⟩ := hdeclared.exists_readPreamble
    rw [read, hpreamble]
    exact if_pos hmore

/-- What a file spells but for the number of clauses makes up the formula. -/
theorem eq_of_spells {s s' : Script} {f f' : Formula} (hread : read bytes = .ok f)
    (hread' : read bytes' = .ok f') (hs : Spells bytes s) (hs' : Spells bytes' s')
    (hvars : s.declared.vars = s'.declared.vars) (hintegers : s.integers = s'.integers)
    (hcomments : s.comments = s'.comments) : f = f' := by
  obtain ⟨cs, hcs, hf, hnames⟩ := read_eq_of_spells hread hs
  obtain ⟨cs', hcs', hf', hnames'⟩ := read_eq_of_spells hread' hs'
  have hunique : Relator.RightUnique fun (piece : List Int) (c : Clause) =>
      Clause.ofInts? piece = some c :=
    fun _ _ _ hc hc' => Option.some.inj (hc.symm.trans hc')
  have hclauses : cs = cs' := hunique.forall₂ hcs (hintegers ▸ hcs')
  have hdescriptions : f.descriptions = f'.descriptions := by
    refine Dictionary.ext_get? fun var => Option.ext fun name => ?_
    rw [hnames, hnames', hcomments]
  rw [hf, hf', hvars, hclauses, hdescriptions]

/-- There is memory for as many clauses as are declared, if they are not too many. -/
theorem read_ne_tooManyClauses {declared : Preamble} (h : Declares bytes declared)
    (hfits : declared.clauses ≤ Memory.maxClauses) (n : Nat) :
    read bytes ≠ .error (.tooManyClauses n) := by
  intro herror
  obtain ⟨hmore, vars, hother⟩ := read_eq_tooManyClauses_iff.1 herror
  obtain ⟨r, hpreamble⟩ := h.exists_readPreamble
  obtain ⟨r', hpreamble'⟩ := hother.exists_readPreamble
  rw [hpreamble] at hpreamble'
  obtain rfl := Except.ok.inj (Prod.mk.inj hpreamble').1
  exact absurd hmore (Nat.not_lt.2 hfits)

/-- A file that is read is read as the same formula with any number of clauses that memory has room
for. -/
theorem Redeclared.read_eq_ok (h : Redeclared bytes bytes')
    (hroom : ∀ n, read bytes' ≠ .error (.tooManyClauses n)) {f : Formula}
    (hread : read bytes = .ok f) : read bytes' = .ok f := by
  obtain ⟨s, hs⟩ := Dimacs.exists_spells hread
  obtain ⟨s', hs', hvars, hintegers, hcomments⟩ := h.exists_spells hs
  have hfits : s'.declared.clauses ≤ Memory.maxClauses := Nat.le_of_not_lt fun hmore =>
    hroom _ (read_eq_tooManyClauses_iff.2 ⟨hmore, s'.declared.vars, hs'.declares⟩)
  obtain ⟨cs, names, -, -, hread'⟩ := read_of_spells hs' hfits
  rw [hread', eq_of_spells hread hread' hs hs' hvars.symm hintegers.symm hcomments.symm]

theorem exists_parse {fault : Fault} (h : ∀ n, fault ≠ .tooManyClauses n) :
    ∃ cause further, Failure.ofDimacs fault = .parse cause further := by
  cases fault with
  | tooManyClauses n => exact absurd rfl (h n)
  | _ => exact ⟨_, _, rfl⟩

/-- Whether two files are read as the same formula or are both faulty. -/
def ReadAlike (bytes bytes' : Bytes) : Prop :=
  (∃ f, read bytes = .ok f ∧ read bytes' = .ok f) ∨
    ∃ cause further cause' further',
      (read bytes).mapError Failure.ofDimacs = .error (.parse cause further) ∧
        (read bytes').mapError Failure.ofDimacs = .error (.parse cause' further')

/-- Files that are alike but for the number of clauses in a problem line are read alike, unless the
reading of one of them ends for lack of memory. It does so exactly if the first line that counts is
a well-formed problem line and declares more clauses than memory can be reserved for, at 24 bytes
each. -/
theorem redeclared_files_read_alike (h : Redeclared bytes bytes') :
    ((∀ n, read bytes ≠ .error (.tooManyClauses n)) →
      (∀ n, read bytes' ≠ .error (.tooManyClauses n)) → ReadAlike bytes bytes') ∧
      ∀ n, read bytes = .error (.tooManyClauses n) ↔
        2 ^ 63 - 1 < 24 * n ∧ ∃ vars, Declares bytes ⟨vars, n⟩ := by
  refine ⟨fun hroom hroom' => ?_, fun n => ?_⟩
  · cases hread : read bytes with
    | ok f => exact .inl ⟨f, hread, h.read_eq_ok hroom' hread⟩
    | error fault =>
      cases hread' : read bytes' with
      | ok f => exact absurd (h.symm.read_eq_ok hroom hread') (by simp [hread])
      | error fault' =>
        obtain ⟨cause, further, hparse⟩ :=
          exists_parse fun n heq => hroom n (hread.trans (congrArg _ heq))
        obtain ⟨cause', further', hparse'⟩ :=
          exists_parse fun n heq => hroom' n (hread'.trans (congrArg _ heq))
        exact .inr ⟨cause, further, cause', further', by rw [hread, ← hparse]; rfl,
          by rw [hread', ← hparse']; rfl⟩
  · have hmore : Memory.maxClauses < n ↔ 2 ^ 63 - 1 < 24 * n := by
      rw [Memory.maxClauses, Memory.limit]
      omega
    rw [read_eq_tooManyClauses_iff, hmore]

namespace Overdeclared

/-- One clause, and a number of clauses. -/
def content (count : String) : Bytes := Bytes.ofText ("p cnf 1 " ++ count ++ "\n1 0\n")

theorem linesOf_content :
    linesOf (content "1") = [some "p cnf 1 1".toList, some "1 0".toList] := by cbv

theorem counts : Counts ['p'] "cnf".toList ['1'] 1 "p cnf 1 1".toList :=
  ⟨by decide, ['1'], by decide, by decide⟩

theorem isProblem : IsProblem ⟨1, 1⟩ "p cnf 1 1".toList :=
  ⟨['1'], ['1'], by decide, by decide, by decide⟩

section

variable {count : String}
  (hlines : linesOf (content count) = [some ("p cnf 1 " ++ count).toList, some "1 0".toList])
  (hcounts : Counts ['p'] "cnf".toList ['1'] m ("p cnf 1 " ++ count).toList)

include hlines hcounts

theorem redeclared : Redeclared (content "1") (content count) :=
  ⟨[], _, _, _, _, _, _, _, _, linesOf_content, hlines, counts, hcounts⟩

theorem declares : Declares (content count) ⟨1, m⟩ :=
  ⟨[("p cnf 1 " ++ count).toList], [some "1 0".toList], _, hlines,
    List.filter_cons_of_pos (p := (HasContent ·)) (decide_eq_true hcounts.hasContent),
    counts.isProblem hcounts isProblem⟩

end

theorem spells : Spells (content "1") ⟨⟨1, 1⟩, [1, 0], []⟩ := by
  have hintegers : IsIntegers "1 0".toList [1, 0] :=
    ⟨by decide, .cons ⟨by decide, by decide⟩ (.cons ⟨by decide, by decide⟩ .nil)⟩
  exact ⟨["p cnf 1 1".toList, "1 0".toList], [], "p cnf 1 1".toList, ["1 0".toList], [[1, 0]], [],
    linesOf_content, by decide, isProblem, .cons hintegers .nil, .plain, rfl, rfl⟩

theorem exists_read : ∃ f, read (content "1") = .ok f := by
  obtain ⟨cs, names, -, -, hread⟩ := read_of_spells spells (by decide)
  exact ⟨_, hread⟩

/-- Of five declared clauses four may be missing. -/
theorem five_declared_read_alike :
    Redeclared (content "1") (content "5") ∧
      ∃ f, read (content "1") = .ok f ∧ read (content "5") = .ok f := by
  have hlines : linesOf (content "5") = [some "p cnf 1 5".toList, some "1 0".toList] := by cbv
  have hcounts : Counts ['p'] "cnf".toList ['1'] 5 "p cnf 1 5".toList :=
    ⟨by decide, ['5'], by decide, by decide⟩
  have h : Redeclared (content "1") (content "5") := redeclared hlines hcounts
  have hroom : ∀ n, read (content "1") ≠ .error (.tooManyClauses n) :=
    read_ne_tooManyClauses spells.declares (by decide)
  have hroom' : ∀ n, read (content "5") ≠ .error (.tooManyClauses n) :=
    read_ne_tooManyClauses (declares hlines hcounts) (by decide)
  obtain ⟨f, hf⟩ := exists_read
  refine ⟨h, f, hf, ?_⟩
  rcases (redeclared_files_read_alike h).1 hroom hroom' with ⟨g, hg, hg'⟩ | ⟨_, _, _, _, herror, -⟩
  · rwa [← Except.ok.inj (hg.symm.trans hf)]
  · rw [hf] at herror
    exact absurd herror (by simp [Except.mapError])

/-- For the largest number of clauses that a file can declare there is no memory, so that a file is
not read which is read with another number. -/
theorem not_read_alike :
    (∃ f, read (content "1") = .ok f) ∧
      read (content "18446744073709551615") = .error (.tooManyClauses 18446744073709551615) ∧
      ¬ ∀ bytes bytes' : Bytes, Redeclared bytes bytes' → ReadAlike bytes bytes' := by
  have hlines : linesOf (content "18446744073709551615") =
      [some "p cnf 1 18446744073709551615".toList, some "1 0".toList] := by cbv
  have hcounts : Counts ['p'] "cnf".toList ['1'] 18446744073709551615
      "p cnf 1 18446744073709551615".toList :=
    ⟨by decide, "18446744073709551615".toList, by decide, by decide⟩
  have hlarge : read (content "18446744073709551615") =
      .error (.tooManyClauses 18446744073709551615) :=
    read_eq_tooManyClauses_iff.2 ⟨by decide, 1, declares hlines hcounts⟩
  refine ⟨exists_read, hlarge, fun hall => ?_⟩
  rcases hall _ _ (redeclared hlines hcounts) with ⟨f, -, hf⟩ | ⟨_, _, _, _, -, herror⟩
  · exact absurd (hlarge.symm.trans hf) (by simp)
  · rw [hlarge] at herror
    exact absurd herror (by simp [Except.mapError, Failure.ofDimacs])

end Overdeclared

end Dimacs
end DiagramCompiler
