import DiagramCompiler.Proofs.CutClauses

/-! The grammar of problem files.
Of the lines of a file those count that are neither blank nor comments once they are trimmed. They
are a problem line, lines of integers and, if the file likes, a line with a percent sign, which a
line with a zero may follow; what comes after that zero is not read. What a file written so spells
is the declared numbers, the integers one after the other, and the comments. -/
namespace DiagramCompiler
namespace Dimacs

def line? (raw : Bytes) : Option (List Char) :=
  (Bytes.text? raw).map fun text => Text.trim text.toList

def linesOf (bytes : Bytes) : List (Option (List Char)) := (Text.splitEnded 10 bytes).map line?

def HasContent (text : List Char) : Prop := text ≠ [] ∧ text.head? ≠ some 'c'

instance (text : List Char) : Decidable (HasContent text) :=
  inferInstanceAs (Decidable (_ ∧ _))

def contents (texts : List (List Char)) : List (List Char) := texts.filter (HasContent ·)

theorem contents_append (texts texts' : List (List Char)) :
    contents (texts ++ texts') = contents texts ++ contents texts' := List.filter_append _ _

theorem contents_eq_cons_iff {texts rest : List (List Char)} {text : List Char} :
    contents texts = text :: rest ↔ ∃ before after, texts = before ++ text :: after ∧
      contents before = [] ∧ HasContent text ∧ contents after = rest := by
  constructor
  · intro h
    obtain ⟨before, after, htexts, hbefore, htext, hafter⟩ := List.filter_eq_cons_iff.1 h
    exact ⟨before, after, htexts, List.filter_eq_nil_iff.2 hbefore, of_decide_eq_true htext, hafter⟩
  · rintro ⟨before, after, rfl, hbefore, htext, rfl⟩
    rw [contents_append, hbefore, List.nil_append]
    exact List.filter_cons_of_pos (p := (HasContent ·)) (decide_eq_true htext)

theorem contents_eq_nil {texts : List (List Char)} {text : List Char} (h : contents texts = [])
    (hmem : text ∈ texts) : ¬ HasContent text := by
  have hfilter := List.filter_eq_nil_iff.1 h text hmem
  simpa using hfilter

/-- After the last line of all nothing is left that does not count, if that line counts. -/
theorem eq_nil_of_getLast? {front later : List (List Char)} {text : List Char}
    (hlast : (front ++ later).getLast? = some text) (htext : HasContent text)
    (hlater : contents later = []) : later = [] := by
  by_contra hne
  rw [List.getLast?_append_of_ne_nil front hne] at hlast
  exact contents_eq_nil hlater (List.mem_of_getLast? hlast) htext

def comment? : List Char → Option (List Char)
  | 'c' :: rest => some rest
  | _ => none

def IsProblem (declared : Preamble) (text : List Char) : Prop :=
  ∃ vars clauses, Text.words text = ["p".toList, "cnf".toList, vars, clauses] ∧
    Numeral.word64 vars = .ok declared.vars ∧ Numeral.word64 clauses = .ok declared.clauses

def IsInteger (word : List Char) (i : Int) : Prop :=
  Numeral.int32 word = .ok i ∧ i ≠ -2147483648

def IsIntegers (text : List Char) (is : List Int) : Prop :=
  text.head? ≠ some 'p' ∧ List.Forall₂ IsInteger (Text.words text) is

theorem IsIntegers.ne_trailer {text : List Char} {is : List Int} (h : IsIntegers text is) :
    text ≠ ['%'] := by
  rintro rfl
  have hwords : Text.words ['%'] = [['%']] := by decide
  have hall := h.2
  rw [hwords] at hall
  cases hall with
  | cons hfirst _ =>
    have hinvalid : Numeral.int32 ['%'] = .error .invalidDigit := by decide
    exact absurd (hinvalid.symm.trans hfirst.1) (by simp)

/-- How the lines that count end, after the integers, and which lines are not read. -/
inductive Ending (texts : List (List Char)) : List (List Char) → List (Option (List Char)) → Prop
  | plain : Ending texts [] []
  | trailer : Ending texts [['%']] []
  /-- The zero is the last line that is read. -/
  | closed (hlast : texts.getLast? = some ['0']) (unread : List (Option (List Char))) :
    Ending texts [['%'], ['0']] unread

theorem Ending.append {texts ending : List (List Char)} {unread : List (Option (List Char))}
    (before : List (List Char)) (h : Ending texts ending unread) :
    Ending (before ++ texts) ending unread := by
  cases h with
  | plain => exact .plain
  | trailer => exact .trailer
  | closed hlast unread => exact .closed (by rw [List.getLast?_append, hlast]; rfl) unread

theorem Ending.of_append {before texts body ending : List (List Char)}
    {unread : List (Option (List Char))} (h : Ending (before ++ texts) ending unread)
    (hcontents : contents texts = body ++ ending) : Ending texts ending unread := by
  cases h with
  | plain => exact .plain
  | trailer => exact .trailer
  | closed hlast unread =>
    have hne : texts ≠ [] := by
      rintro rfl
      exact absurd hcontents (by simp [contents])
    obtain ⟨last, hsome⟩ := Option.ne_none_iff_exists'.1 (mt List.getLast?_eq_none_iff.1 hne)
    rw [List.getLast?_append, hsome] at hlast
    exact .closed (hsome.trans hlast) unread

/-- What is written in a problem file. -/
structure Script where
  declared : Preamble
  integers : List Int
  comments : List (List Char)

/-- Whether a file is a way of writing something down. -/
def Spells (bytes : Bytes) (s : Script) : Prop :=
  ∃ texts unread problem body lists ending,
    linesOf bytes = texts.map some ++ unread ∧ contents texts = problem :: (body ++ ending) ∧
      IsProblem s.declared problem ∧ List.Forall₂ IsIntegers body lists ∧
      Ending texts ending unread ∧ s.integers = lists.flatten ∧
      s.comments = texts.filterMap comment?

/-- Whether the first line that counts declares numbers of variables and of clauses. -/
def Declares (bytes : Bytes) (declared : Preamble) : Prop :=
  ∃ texts unread problem, linesOf bytes = texts.map some ++ unread ∧ contents texts = [problem] ∧
    IsProblem declared problem

/-- Whether a comment gives a name to a variable: it begins with a number and the name. -/
def Names (comment : List Char) (var : Nat) (name : String) : Prop :=
  ∃ number others, Text.words comment = number :: name.toList :: others ∧
    Numeral.word32 number = .ok var ∧ 0 < var

/-- Whether the last comment that names a variable gives it some name. -/
def NamesLast (comments : List (List Char)) (var : Nat) (name : String) : Prop :=
  ∃ before comment after, comments = before ++ comment :: after ∧ Names comment var name ∧
    ∀ later ∈ after, ∀ other, ¬ Names later var other

end Dimacs
end DiagramCompiler
