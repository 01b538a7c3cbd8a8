import DiagramCompiler.Dimacs.Fault
import DiagramCompiler.Formula
import DiagramCompiler.Memory
import DiagramCompiler.Text.Blank

/-! Reading problem files.
A problem file holds comments, one problem line, and integers that zeros cut into clauses, on any
number of lines. A comment that names a variable describes it. A line with a percent sign and then
a line with a zero end the clauses. The reader is asked for the problem line first and then for one
clause at a time, and stays usable after a fault. -/
namespace DiagramCompiler
namespace Dimacs

/-- What the problem line declares. -/
structure Preamble where
  vars : Nat
  clauses : Nat
  deriving DecidableEq, Repr

/-- An integer of a clause line: a literal, or the zero that ends a clause. -/
inductive Token where
  | literal (l : Literal)
  | stop
  deriving DecidableEq, Repr

/-- A line that is neither blank nor a comment. -/
inductive Line where
  | problem (text : List Char)
  | clause (text : List Char)
  | trailer
  deriving DecidableEq, Repr

/-- What a trimmed line means to the reader. -/
inductive Meaning where
  | nothing
  | comment (text : List Char)
  | content (line : Line)
  deriving DecidableEq, Repr

def meaning (text : List Char) : Meaning :=
  match text with
  | [] => .nothing
  | 'c' :: rest => .comment rest
  | 'p' :: _ => .content (.problem text)
  | ['%'] => .content .trailer
  | _ => .content (.clause text)

/-- The description that a comment gives: a positive variable number and the word after it. -/
def description? (comment : List Char) : Option (Nat × String) :=
  match Text.words comment with
  | id :: word :: _ =>
    match Numeral.word32 id with
    | .ok var => if 0 < var then some (var, String.ofList word) else none
    | .error _ => none
  | _ => none

structure Reader where
  /-- Lines not read yet. -/
  pending : List Bytes
  /-- Number of lines read. -/
  line : Nat
  descriptions : Dictionary Nat String
  preamble : Option Preamble
  /-- Integers of the current line not used yet. -/
  tokens : List Token
  /-- Whether the clauses have ended. -/
  exhausted : Bool

namespace Reader

def ofBytes (bytes : Bytes) : Reader :=
  { pending := Text.splitEnded 10 bytes
    line := 0
    descriptions := .empty
    preamble := none
    tokens := []
    exhausted := false }

def withTokens (r : Reader) (tokens : List Token) : Reader := { r with tokens := tokens }

def finish (r : Reader) : Reader := { r with exhausted := true }

@[simp] theorem pending_withTokens (r : Reader) (ts : List Token) :
    (r.withTokens ts).pending = r.pending := rfl

@[simp] theorem tokens_withTokens (r : Reader) (ts : List Token) : (r.withTokens ts).tokens = ts :=
  rfl

@[simp] theorem pending_finish (r : Reader) : r.finish.pending = r.pending := rfl

@[simp] theorem tokens_finish (r : Reader) : r.finish.tokens = r.tokens := rfl

def describe (r : Reader) (comment : List Char) : Reader :=
  match description? comment with
  | some (var, word) => { r with descriptions := r.descriptions.insert var word }
  | none => r

/-- Reads lines up to the next one with content, recording the comments on the way. A line that is
no text is passed over without being counted. -/
def scan : List Bytes → Reader → Except Fault (Option Line) × Reader
  | [], r => (.ok none, { r with pending := [] })
  | raw :: rest, r =>
    match Bytes.text? raw with
    | none => (.error (.unreadable (r.line + 1) .notText), { r with pending := rest })
    | some text =>
      let r := { r with pending := rest, line := r.line + 1 }
      match meaning (Text.trim text.toList) with
      | .nothing => scan rest r
      | .comment comment => scan rest (r.describe comment)
      | .content line => (.ok (some line), r)

def nextLine (r : Reader) : Except Fault (Option Line) × Reader := scan r.pending r

theorem pending_scan_lt {lines : List Bytes} {r r' : Reader} {line : Line}
    (h : scan lines r = (.ok (some line), r')) : r'.pending.length < lines.length := by
  fun_induction scan lines r with
  | case1 => simp at h
  | case2 => simp at h
  | case3 _ _ _ _ _ _ _ ih => exact Nat.lt_succ_of_lt (ih h)
  | case4 _ _ _ _ _ _ _ _ ih => exact Nat.lt_succ_of_lt (ih h)
  | case5 =>
    simp only [Prod.mk.injEq] at h
    rw [← h.2]
    exact Nat.lt_succ_self _

theorem pending_scan_le (lines : List Bytes) (r : Reader) :
    (scan lines r).2.pending.length ≤ lines.length := by
  fun_induction scan lines r with
  | case1 => exact Nat.le_refl _
  | case2 => exact Nat.le_succ _
  | case3 _ _ _ _ _ _ _ ih => exact Nat.le_succ_of_le ih
  | case4 _ _ _ _ _ _ _ _ ih => exact Nat.le_succ_of_le ih
  | case5 => exact Nat.le_succ _

theorem tokens_scan (lines : List Bytes) (r : Reader) : (scan lines r).2.tokens = r.tokens := by
  fun_induction scan lines r with
  | case1 => rfl
  | case2 => rfl
  | case3 _ _ _ _ _ _ _ ih => exact ih
  | case4 _ _ _ _ _ _ _ _ ih => rw [ih, describe]; split <;> rfl
  | case5 => rfl

theorem pending_nextLine_le (r : Reader) : r.nextLine.2.pending.length ≤ r.pending.length :=
  pending_scan_le _ _

theorem tokens_nextLine (r : Reader) : r.nextLine.2.tokens = r.tokens := tokens_scan _ _

theorem pending_nextLine_lt {r r' : Reader} {line : Line}
    (h : r.nextLine = (.ok (some line), r')) : r'.pending.length < r.pending.length :=
  pending_scan_lt h

def parseProblem (text : List Char) : Except ProblemFault Preamble :=
  match Text.words text with
  | [tag, format, vars, clauses] =>
    if tag ≠ ['p'] then .error (.shape (String.ofList text))
    else if format ≠ "cnf".toList then .error (.format (String.ofList format))
    else match Numeral.word64 vars with
      | .error cause => .error (.varCount (String.ofList vars) cause)
      | .ok n =>
        match Numeral.word64 clauses with
        | .error cause => .error (.clauseCount (String.ofList clauses) cause)
        | .ok m => .ok ⟨n, m⟩
  | _ => .error (.shape (String.ofList text))

def readPreamble (r : Reader) : Except Fault Preamble × Reader :=
  match r.preamble with
  | some p => (.ok p, r)
  | none =>
    match r.nextLine with
    | (.error fault, r) => (.error fault, r)
    | (.ok none, r) => (.error .noProblemLine, r)
    | (.ok (some (.problem text)), r) =>
      match parseProblem text with
      | .error cause => (.error (.problemLine r.line cause), r)
      | .ok p => (.ok p, { r with preamble := some p })
    | (.ok (some _), r) => (.error (.problemLineExpected r.line), r)

def parseToken (line : Nat) (word : List Char) : Except Fault Token :=
  match Numeral.int32 word with
  | .error cause => .error (.notLiteral line (String.ofList word) cause)
  | .ok i =>
    if i = 0 then .ok .stop
    else match Literal.ofInt? i with
      | some l => .ok (.literal l)
      | none => .error (.literalOutOfRange line (String.ofList word))

/-- Loads the integers of the next clause line; the answer is false once the clauses are over. -/
def refill (r : Reader) : Except Fault Bool × Reader :=
  if r.exhausted then (.ok false, r)
  else match r.nextLine with
    | (.error fault, r) => (.error fault, r)
    | (.ok none, r) => (.ok false, r.finish)
    | (.ok (some (.problem _)), r) => (.error (.secondProblemLine r.line), r)
    | (.ok (some (.clause text)), r) =>
      match (Text.words text).mapM (parseToken r.line) with
      | .error fault => (.error fault, r)
      | .ok tokens => (.ok true, r.withTokens tokens)
    | (.ok (some .trailer), r) =>
      match r.finish.nextLine with
      | (.error fault, r) => (.error fault, r)
      | (.ok none, r) => (.ok false, r)
      | (.ok (some line), r) =>
        if line = .clause ['0'] then (.ok false, r) else (.error (.trailer r.line), r)

theorem pending_refill_lt {r r' : Reader} (h : r.refill = (.ok true, r')) :
    r'.pending.length < r.pending.length := by
  rw [refill] at h
  split at h
  · simp at h
  · split at h
    · simp at h
    · simp at h
    · simp at h
    · next hline =>
      split at h
      · simp at h
      · simp only [Prod.mk.injEq] at h
        rw [← h.2]
        have := pending_nextLine_lt hline
        exact this
    · split at h
      · simp at h
      · simp at h
      · split at h <;> simp at h

theorem pending_refill_le (r : Reader) : r.refill.2.pending.length ≤ r.pending.length := by
  have first := pending_nextLine_le r
  rw [refill]
  split
  · exact Nat.le_refl _
  · split
    · next h => simpa [h] using first
    · next h => simpa [h] using first
    · next h => simpa [h] using first
    · next h => rw [h] at first; split <;> exact first
    · next r' h =>
      rw [h] at first
      have second := pending_nextLine_le r'.finish
      split
      · next h' => rw [h'] at second; exact Nat.le_trans second first
      · next h' => rw [h'] at second; exact Nat.le_trans second first
      · next h' => rw [h'] at second; split <;> exact Nat.le_trans second first

theorem tokens_refill_false {r r' : Reader} (h : r.refill = (.ok false, r')) :
    r'.tokens = r.tokens := by
  have first := tokens_nextLine r
  rw [refill] at h
  split at h
  · simp only [Prod.mk.injEq] at h; rw [h.2]
  · split at h
    · simp at h
    · next hline => simp only [Prod.mk.injEq] at h; rw [hline] at first; rw [← h.2]; exact first
    · simp at h
    · split at h <;> simp at h
    · next r₁ hline =>
      rw [hline] at first
      have second := tokens_nextLine r₁.finish
      split at h
      · simp at h
      · next hline' =>
        simp only [Prod.mk.injEq] at h
        rw [hline'] at second; rw [← h.2]; exact second.trans first
      · next hline' =>
        split at h
        · simp only [Prod.mk.injEq] at h
          rw [hline'] at second; rw [← h.2]; exact second.trans first
        · simp at h

/-- The literals before the first zero, and the tokens after it if there is one. -/
def takeLiterals : List Token → List Literal × Option (List Token)
  | [] => ([], none)
  | .stop :: ts => ([], some ts)
  | .literal l :: ts => (l :: (takeLiterals ts).1, (takeLiterals ts).2)

theorem length_takeLiterals_lt {ts rest : List Token} (h : (takeLiterals ts).2 = some rest) :
    rest.length < ts.length := by
  fun_induction takeLiterals ts with
  | case1 => simp at h
  | case2 ts => simp_all
  | case3 _ ts ih => exact Nat.lt_succ_of_lt (ih h)

def gather (known : List Literal) (r : Reader) : Except Fault (Option Clause) × Reader :=
  let known := known ++ (takeLiterals r.tokens).1
  match (takeLiterals r.tokens).2 with
  | some rest => (.ok (some (.ofLiterals known)), r.withTokens rest)
  | none =>
    match _h : (r.withTokens []).refill with
    | (.error fault, r') => (.error fault, r')
    | (.ok true, r') => gather known r'
    | (.ok false, r') =>
      if known = [] then (.ok none, r') else (.ok (some (.ofLiterals known)), r')
termination_by r.pending.length
decreasing_by exact (pending_refill_lt _h :)

theorem pending_gather_le (known : List Literal) (r : Reader) :
    (gather known r).2.pending.length ≤ r.pending.length := by
  have first (r : Reader) := pending_refill_le (r.withTokens [])
  fun_induction gather known r with
  | case1 => exact Nat.le_refl _
  | case2 _ r _ _ _ h => have := first r; rw [h] at this; exact this
  | case3 _ r _ _ _ h ih =>
    have := pending_refill_lt h
    exact Nat.le_trans ih (Nat.le_of_lt this)
  | case4 _ r _ _ _ h => have := first r; rw [h] at this; exact this
  | case5 _ r _ _ _ h => have := first r; rw [h] at this; exact this

/-- A clause uses up lines or, within the current line, integers. -/
theorem gather_some_lt {r r' : Reader} {c : Clause} (h : gather [] r = (.ok (some c), r')) :
    r'.pending.length < r.pending.length ∨
      r'.pending.length ≤ r.pending.length ∧ r'.tokens.length < r.tokens.length := by
  rw [gather] at h
  split at h
  · next rest htake =>
    simp only [Prod.mk.injEq] at h
    rw [← h.2]
    exact .inr ⟨Nat.le_refl _, length_takeLiterals_lt htake⟩
  · next htake =>
    have first := pending_refill_le (r.withTokens [])
    split at h
    · simp at h
    · next r₁ hfill =>
      have rest := pending_gather_le ([] ++ (takeLiterals r.tokens).1) r₁
      rw [h] at rest
      have := pending_refill_lt hfill
      exact .inl (Nat.lt_of_le_of_lt rest this)
    · next hfill =>
      rw [hfill] at first
      split at h
      · simp at h
      · next hknown =>
        simp only [Prod.mk.injEq] at h
        rw [← h.2]
        refine .inr ⟨first, ?_⟩
        rw [tokens_refill_false hfill]
        cases hts : r.tokens with
        | nil => simp [hts, takeLiterals] at hknown
        | cons => simp

/-- The next clause, if there is one. A last clause needs no zero. -/
def nextClause (r : Reader) : Except Fault (Option Clause) × Reader :=
  if r.preamble.isNone then (.error .clausesTooEarly, r) else r.gather []

theorem nextClause_some_lt {r r' : Reader} {c : Clause}
    (h : r.nextClause = (.ok (some c), r')) :
    r'.pending.length < r.pending.length ∨
      r'.pending.length ≤ r.pending.length ∧ r'.tokens.length < r.tokens.length := by
  rw [nextClause] at h
  split at h
  · simp at h
  · exact gather_some_lt h

def clauses (r : Reader) : Except Fault (List Clause) × Reader :=
  match _h : r.nextClause with
  | (.error fault, r') => (.error fault, r')
  | (.ok none, r') => (.ok [], r')
  | (.ok (some c), r') =>
    match r'.clauses with
    | (.ok cs, r'') => (.ok (c :: cs), r'')
    | (.error fault, r'') => (.error fault, r'')
termination_by (r.pending.length, r.tokens.length)
decreasing_by
  rcases nextClause_some_lt _h with h | ⟨h, h'⟩
  · exact .left _ _ h
  · rcases Nat.lt_or_eq_of_le h with h | h
    · exact .left _ _ h
    · rw [h]; exact .right _ h'

end Reader

/-- Reads a whole problem file. Memory for the declared number of clauses is reserved first; apart
from that a wrong number does not matter. -/
def read (bytes : Bytes) : Except Fault Formula :=
  match (Reader.ofBytes bytes).readPreamble with
  | (.error fault, _) => .error fault
  | (.ok preamble, r) =>
    if Memory.maxClauses < preamble.clauses then .error (.tooManyClauses preamble.clauses)
    else match r.clauses with
      | (.error fault, _) => .error fault
      | (.ok clauses, r) =>
        .ok { Formula.ofClauses preamble.vars clauses with descriptions := r.descriptions }

end Dimacs
end DiagramCompiler
