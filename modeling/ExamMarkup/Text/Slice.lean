import ExamMarkup.Text.Basic

/-!
# Slices

Places in a text are counted in bytes of its UTF-8 form. A slice from one place to another exists
only if they lie in the text, in this order, and neither is inside a character.
-/

namespace ExamMarkup.Text

def utf8 (t : Text) : List UInt8 := t.flatMap String.utf8EncodeChar

@[simp] theorem utf8_nil : utf8 [] = [] := rfl

@[simp] theorem utf8_cons (c : Char) (t : Text) :
    utf8 (c :: t) = String.utf8EncodeChar c ++ utf8 t := rfl

@[simp] theorem utf8_append (t u : Text) : utf8 (t ++ u) = utf8 t ++ utf8 u :=
  List.flatMap_append

@[simp] theorem length_utf8 (t : Text) : (utf8 t).length = t.byteSize := by
  induction t with
  | nil => rfl
  | cons c t ih => simp [ih]

/-- The text before and after a place. -/
def cutAt? : Text → Nat → Option (Text × Text)
  | t, 0 => some ([], t)
  | [], _ + 1 => none
  | c :: t, n + 1 =>
    if c.utf8Size ≤ n + 1 then
      (cutAt? t (n + 1 - c.utf8Size)).map fun (before, after) => (c :: before, after)
    else none

/-- A text is cut at a place into the bytes before the place and the rest. -/
theorem cutAt?_eq_some_iff {t before after : Text} {n : Nat} :
    cutAt? t n = some (before, after) ↔ t = before ++ after ∧ before.byteSize = n := by
  fun_induction cutAt? t n generalizing before with
  | case1 t =>
    constructor
    · intro h
      obtain ⟨rfl, rfl⟩ := Prod.mk.inj (Option.some.inj h)
      exact ⟨rfl, rfl⟩
    · rintro ⟨rfl, hsize⟩
      cases before with
      | nil => rfl
      | cons c before =>
        have := c.utf8Size_pos
        simp only [byteSize_cons] at hsize
        omega
  | case2 n =>
    constructor
    · intro h
      simp at h
    · rintro ⟨hnil, hsize⟩
      obtain ⟨rfl, rfl⟩ := List.append_eq_nil_iff.1 hnil.symm
      simp at hsize
  | case3 c t n hfits ih =>
    constructor
    · intro h
      obtain ⟨⟨before', after'⟩, hcut, heq⟩ := Option.map_eq_some_iff.1 h
      simp only [Prod.mk.injEq] at heq
      obtain ⟨rfl, rfl⟩ := heq
      obtain ⟨rfl, hsize⟩ := ih.1 hcut
      refine ⟨rfl, ?_⟩
      rw [byteSize_cons]
      omega
    · rintro ⟨htext, hsize⟩
      cases before with
      | nil => simp at hsize
      | cons d before =>
        obtain ⟨rfl, rfl⟩ := List.cons.inj htext
        rw [byteSize_cons] at hsize
        rw [ih.2 ⟨rfl, by omega⟩]
        rfl
  | case4 c t n hfits =>
    constructor
    · intro h
      simp at h
    · rintro ⟨htext, hsize⟩
      cases before with
      | nil => simp at hsize
      | cons d before =>
        obtain ⟨rfl, rfl⟩ := List.cons.inj htext
        rw [byteSize_cons] at hsize
        omega

/-- The part of a text between two places. -/
def slice? (t : Text) (start stop : Nat) : Option Text :=
  if start ≤ stop then do
    let (_, rest) ← cutAt? t start
    let (inner, _) ← cutAt? rest (stop - start)
    return inner
  else none

theorem slice?_eq_some_iff {t inner : Text} {start stop : Nat} :
    slice? t start stop = some inner ↔
      ∃ before after, t = before ++ inner ++ after ∧ before.byteSize = start ∧
        (before ++ inner).byteSize = stop := by
  unfold slice?
  constructor
  · intro h
    split at h
    next hle =>
      simp only [Option.bind_eq_bind, Option.bind_eq_some_iff, Option.pure_def, Option.some.injEq,
        Prod.exists] at h
      obtain ⟨before, rest, hbefore, inner', after, hinner, rfl⟩ := h
      obtain ⟨rfl, hstart⟩ := cutAt?_eq_some_iff.1 hbefore
      obtain ⟨rfl, hsize⟩ := cutAt?_eq_some_iff.1 hinner
      refine ⟨before, after, by rw [List.append_assoc], hstart, ?_⟩
      rw [byteSize_append]
      omega
    next => simp at h
  · rintro ⟨before, after, rfl, hstart, hstop⟩
    rw [byteSize_append] at hstop
    have hbefore : cutAt? (before ++ inner ++ after) start = some (before, inner ++ after) :=
      cutAt?_eq_some_iff.2 ⟨List.append_assoc .., hstart⟩
    have hinner : cutAt? (inner ++ after) (stop - start) = some (inner, after) :=
      cutAt?_eq_some_iff.2 ⟨rfl, by omega⟩
    rw [if_pos (by omega), hbefore]
    simp [hinner]

theorem slice?_append (before inner after : Text) :
    slice? (before ++ inner ++ after) before.byteSize (before ++ inner).byteSize = some inner :=
  slice?_eq_some_iff.2 ⟨before, after, rfl, rfl, rfl⟩

theorem eq_nil_of_byteSize {t : Text} (h : t.byteSize = 0) : t = [] := by
  cases t with
  | nil => rfl
  | cons c t =>
    have := c.utf8Size_pos
    rw [byteSize_cons] at h
    omega

theorem cutAt?_append_add (before t : Text) (n : Nat) :
    cutAt? (before ++ t) (before.byteSize + n) =
      (cutAt? t n).map fun (first, rest) => (before ++ first, rest) := by
  induction before with
  | nil =>
    rw [List.nil_append, byteSize_nil, Nat.zero_add]
    exact Option.map_id'.symm
  | cons c before ih =>
    have := c.utf8Size_pos
    have hsize : byteSize (c :: before) + n = c.utf8Size + byteSize before + n - 1 + 1 := by
      rw [byteSize_cons]
      omega
    have hrest : c.utf8Size + byteSize before + n - 1 + 1 - c.utf8Size = byteSize before + n := by
      omega
    rw [List.cons_append, hsize, cutAt?, if_pos (by omega), hrest, ih, Option.map_map]
    rfl

theorem slice?_append_add (before t : Text) (start stop : Nat) :
    slice? (before ++ t) (before.byteSize + start) (before.byteSize + stop) =
      slice? t start stop := by
  simp only [slice?, Nat.add_le_add_iff_left, cutAt?_append_add, Nat.add_sub_add_left]
  split
  · cases cutAt? t start <;> rfl
  · rfl

theorem slice?_append_right {t inner : Text} {start stop : Nat}
    (h : slice? t start stop = some inner) (after : Text) :
    slice? (t ++ after) start stop = some inner := by
  obtain ⟨before, rest, rfl, hstart, hstop⟩ := slice?_eq_some_iff.1 h
  exact slice?_eq_some_iff.2 ⟨before, rest ++ after, List.append_assoc .., hstart, hstop⟩

theorem slice?_join {t u inner inner' : Text} {start stop : Nat}
    (h : slice? t start t.byteSize = some inner) (h' : slice? u 0 stop = some inner') :
    slice? (t ++ u) start (t.byteSize + stop) = some (inner ++ inner') := by
  obtain ⟨before, rest, rfl, rfl, hend⟩ := slice?_eq_some_iff.1 h
  obtain ⟨before', rest', rfl, hstart, rfl⟩ := slice?_eq_some_iff.1 h'
  obtain rfl := eq_nil_of_byteSize hstart
  obtain rfl : rest = [] := by
    apply eq_nil_of_byteSize
    rw [byteSize_append (before ++ inner)] at hend
    omega
  apply slice?_eq_some_iff.2
  refine ⟨before, rest', by simp, rfl, ?_⟩
  simp [Nat.add_assoc]

end ExamMarkup.Text
