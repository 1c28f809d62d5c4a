/-!
# Texts

A text is the list of its characters. Positions and sizes count the bytes of its UTF-8 form.
Numbers are read from ASCII digits, below a limit.
-/

namespace ExamMarkup

-- Powers of whole numbers, and what is decided by going through a list, mean what they mean in the
-- core library, whatever else a module imports.
instance (priority := 2000) natPower : Pow Nat Nat := instPowNat

instance (priority := 2000) intPower : Pow Int Nat := instPowNat

instance (priority := 2000) decidableForallMem {α : Type} (p : α → Prop) [DecidablePred p]
    (xs : List α) : Decidable (∀ x ∈ xs, p x) := List.decidableBAll p xs

abbrev Text := List Char

namespace Text

/-- Number of bytes of the UTF-8 form. -/
def byteSize : Text → Nat
  | [] => 0
  | c :: t => c.utf8Size + byteSize t

@[simp] theorem byteSize_nil : byteSize [] = 0 := rfl

@[simp] theorem byteSize_cons (c : Char) (t : Text) :
    byteSize (c :: t) = c.utf8Size + byteSize t := rfl

@[simp] theorem byteSize_append (t u : Text) : byteSize (t ++ u) = byteSize t + byteSize u := by
  induction t with
  | nil => simp
  | cons c t ih => simp [ih, Nat.add_assoc]

/-- What follows `lead` in a text that begins with it. -/
def after? : Text → Text → Option Text
  | [], t => some t
  | _ :: _, [] => none
  | p :: lead, c :: t => if p = c then after? lead t else none

theorem after?_eq_some_iff {lead t rest : Text} :
    after? lead t = some rest ↔ t = lead ++ rest := by
  induction lead generalizing t with
  | nil => simp [after?, eq_comm]
  | cons p lead ih =>
    cases t with
    | nil => simp [after?]
    | cons c t =>
      by_cases h : p = c
      · simp [after?, h, ih]
      · simp [after?, h, Ne.symm h]

@[simp] theorem after?_append (lead rest : Text) : after? lead (lead ++ rest) = some rest :=
  after?_eq_some_iff.2 rfl

/-- The ASCII digits of a number. -/
def decimal (n : Nat) : Text := Nat.toDigits 10 n

def digit? (c : Char) : Option Nat :=
  if c.isDigit then some (c.toNat - 48) else none

/-- Digits appended to a number already read. -/
def readDigits (value : Nat) : Text → Option Nat
  | [] => some value
  | c :: t => (digit? c).bind fun d => readDigits (10 * value + d) t

/-- A number of at least one ASCII digit, below `limit`; one plus sign may stand before it. -/
def readBelow? (limit : Nat) (t : Text) : Option Nat :=
  let digits := (after? ['+'] t).getD t
  if digits.isEmpty then none
  else (readDigits 0 digits).filter (· < limit)

/-- Number of values of a 64-bit word. -/
def wordLimit : Nat := 2 ^ (64 : Nat)

def hexDigit (n : Nat) : Char := Nat.digitChar (n % 16)

def hex16 (word : UInt64) : Text :=
  (List.range 16).map fun i => hexDigit (word.toNat / 16 ^ (15 - i))

/-- The pieces of a text between its marks, at least one. -/
def split (mark : Char) : Text → List Text
  | [] => [[]]
  | c :: t =>
    if c = mark then [] :: split mark t
    else match split mark t with
      | [] => [[c]]
      | piece :: rest => (c :: piece) :: rest

def join (mark : Char) : List Text → Text
  | [] => []
  | [piece] => piece
  | piece :: rest => piece ++ mark :: join mark rest

theorem split_ne_nil (mark : Char) (t : Text) : split mark t ≠ [] := by
  cases t with
  | nil => simp [split]
  | cons c t =>
    rw [split]
    split
    · simp
    · split <;> simp

@[simp] theorem join_split (mark : Char) (t : Text) : join mark (split mark t) = t := by
  induction t with
  | nil => rfl
  | cons c t ih =>
    rw [split]
    split
    next h =>
      cases hs : split mark t with
      | nil => exact absurd hs (split_ne_nil mark t)
      | cons piece rest => rw [hs] at ih; simp [join, ih, h]
    next h =>
      cases hs : split mark t with
      | nil => exact absurd hs (split_ne_nil mark t)
      | cons piece rest =>
        rw [hs] at ih
        cases rest with
        | nil => simpa [join] using ih
        | cons next rest => simpa [join] using ih

theorem not_mem_of_mem_split {mark : Char} {t piece : Text} (h : piece ∈ split mark t) :
    mark ∉ piece := by
  induction t generalizing piece with
  | nil => simp_all [split]
  | cons c t ih =>
    rw [split] at h
    split at h
    next hc =>
      rcases List.mem_cons.1 h with rfl | h
      · simp
      · exact ih h
    next hc =>
      split at h
      next hs => exact absurd hs (split_ne_nil mark t)
      next first rest hs =>
        rw [hs] at ih
        rcases List.mem_cons.1 h with rfl | h
        · simp [Ne.symm hc, ih List.mem_cons_self]
        · exact ih (List.mem_cons_of_mem _ h)

theorem split_of_not_mem {mark : Char} {t : Text} (h : mark ∉ t) : split mark t = [t] := by
  induction t with
  | nil => rfl
  | cons c t ih =>
    rw [List.mem_cons, not_or] at h
    rw [split, if_neg (Ne.symm h.1), ih h.2]

def lines (t : Text) : List Text := split '\n' t

def unlines (ts : List Text) : Text := join '\n' ts

@[simp] theorem unlines_lines (t : Text) : unlines (lines t) = t := join_split '\n' t

/-- Order by code point, which is also the order of the UTF-8 bytes. -/
def precedes : Text → Text → Bool
  | [], _ => true
  | _ :: _, [] => false
  | c :: t, d :: u => c.val < d.val || (c == d && precedes t u)

def sorted (ts : List Text) : List Text := ts.mergeSort precedes

end Text

end ExamMarkup
