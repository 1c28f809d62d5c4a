import ExamMarkup.Formula.Span
import ExamMarkup.Text.Slice

/-!
# Scanning bytes for formulas

The places of the formulas of a text, found in its UTF-8 form without decoding it. A first scan
looks for display formulas; a second one goes through each region between them and skips two bytes
at a backslash, even if the second of them is inside a character. What the two find is put in the
order of the text.
-/

namespace ExamMarkup.Formula

/-- The bytes that a formula takes up, delimiters included. -/
structure Place where
  start : Nat
  stop : Nat
  style : Style
  deriving DecidableEq, Repr

def Span.place (s : Span) : Place := ⟨s.start, s.stop, s.style⟩

namespace Scan

abbrev Bytes := List UInt8

def dollar : UInt8 := 0x24

def backslash : UInt8 := 0x5c

def lineFeed : UInt8 := 0x0a

/-- Whether the bytes begin with no byte that continues a character. -/
def atCharacter : Bytes → Bool
  | [] => true
  | b :: _ => b < 0x80 || 0xc0 ≤ b

def cutDollars? : Bytes → Option (Bytes × Bytes)
  | [] => none
  | b :: bytes =>
    if b = dollar ∧ bytes.head? = some dollar then some ([], bytes.tail)
    else (cutDollars? bytes).map fun (before, rest) => (b :: before, rest)

theorem length_of_cutDollars? {bytes before rest : Bytes}
    (h : cutDollars? bytes = some (before, rest)) : rest.length + 1 < bytes.length := by
  induction bytes generalizing before with
  | nil => simp [cutDollars?] at h
  | cons b bytes ih =>
    simp only [cutDollars?] at h
    split at h
    next hdollars =>
      cases bytes with
      | nil => simp at hdollars
      | cons c bytes =>
        obtain ⟨-, rfl⟩ := Prod.mk.inj (Option.some.inj h)
        simp
    next =>
      obtain ⟨⟨before', rest'⟩, hcut, heq⟩ := Option.map_eq_some_iff.1 h
      simp only [Prod.mk.injEq] at heq
      obtain ⟨-, rfl⟩ := heq
      exact Nat.lt_succ_of_lt (ih hcut)

/-- The place of the first `$$` that does not stand directly after a backslash, and the bytes after
it. `last` is the byte before the bytes, whose first has the given position. After an escaped `$$`
the search goes on at its second byte. -/
def findDouble? (last : Option UInt8) (position : Nat) (bytes : Bytes) : Option (Nat × Bytes) :=
  if atCharacter bytes then
    match _h : cutDollars? bytes with
    | none => none
    | some (before, rest) =>
      if (last.toList ++ before).getLast? = some backslash then
        findDouble? (some dollar) (position + before.length + 1) (dollar :: rest)
      else some (position + before.length, rest)
  else none
  termination_by bytes.length
  decreasing_by exact length_of_cutDollars? _h

theorem length_of_findDouble? {last : Option UInt8} {position place : Nat} {bytes rest : Bytes}
    (h : findDouble? last position bytes = some (place, rest)) :
    rest.length + 1 < bytes.length := by
  fun_induction findDouble? last position bytes with
  | case1 => simp at h
  | case2 last position bytes _ before rest' hcut _ ih =>
    have := length_of_cutDollars? hcut
    have := ih h
    simp only [List.length_cons] at this
    omega
  | case3 last position bytes _ before rest' hcut _ =>
    obtain ⟨-, rfl⟩ := Prod.mk.inj (Option.some.inj h)
    exact length_of_cutDollars? hcut
  | case4 => simp at h

def displayPlaces (last : Option UInt8) (position : Nat) (bytes : Bytes) : List Place :=
  match _hopen : findDouble? last position bytes with
  | none => []
  | some (start, inner) =>
    match _hclose : findDouble? (some dollar) (start + 2) inner with
    | none => []
    | some (close, rest) =>
      ⟨start, close + 2, .display⟩ :: displayPlaces (some dollar) (close + 2) rest
  termination_by bytes.length
  decreasing_by
    have := length_of_findDouble? _hopen
    have := length_of_findDouble? _hclose
    omega

/-- The places of the inline formulas of a region. `opened` is the place of a `$` that the next one
closes, `position` that of the first byte. -/
def scanRegion (opened : Option Nat) (position : Nat) : Bytes → List Place
  | [] => []
  | b :: bytes =>
    if b = backslash then scanRegion opened (position + 2) bytes.tail
    else if b = dollar then
      match opened with
      | none =>
        if bytes.head? = some dollar then scanRegion none (position + 2) bytes.tail
        else scanRegion (some position) (position + 1) bytes
      | some start =>
        if start + 1 < position then
          ⟨start, position + 1, .inline⟩ :: scanRegion none (position + 1) bytes
        else scanRegion none (position + 1) bytes
    else if b = lineFeed ∧ opened.isSome ∧ bytes.head? = some lineFeed then
      scanRegion none (position + 2) bytes.tail
    else scanRegion opened (position + 1) bytes
  termination_by bytes => bytes.length
  decreasing_by
    all_goals simp only [List.length_cons, List.length_tail]
    all_goals omega

/-- The places of the inline formulas from a position on, in the regions between the display
formulas. -/
def inlinePlaces (bytes : Bytes) (position : Nat) : List Place → List Place
  | [] => scanRegion none position (bytes.drop position)
  | p :: rest =>
    scanRegion none position ((bytes.take p.start).drop position) ++
      inlinePlaces bytes p.stop rest

/-- The places of all formulas in the order in which they are found. -/
def found (bytes : Bytes) : List Place :=
  let displays := displayPlaces none 0 bytes
  displays ++ inlinePlaces bytes 0 displays

/-- The places of all formulas, in order. -/
def places (bytes : Bytes) : List Place := (found bytes).mergeSort fun p q => p.start ≤ q.start

end Scan

end ExamMarkup.Formula
