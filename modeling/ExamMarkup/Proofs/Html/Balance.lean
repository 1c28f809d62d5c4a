import ExamMarkup.Proofs.Html.Token
import ExamMarkup.Text.Classes
import Mathlib.Data.List.TakeWhile

/-!
# Opening and closing tags

How many tags of a name a text opens more than it closes, read off from left to right. A reading
stands outside tags or in one, and what it adds up in a text does not depend on what came before.
-/

namespace ExamMarkup.Html

/-- What stands in a tag before the first blank. -/
def tagName (inner : Text) : Text := inner.takeWhile fun c => !Text.isBlank c

def tags (t : Text) : List Text := (tokens t).filterMap Token.tag?

/-- Number of tags that open an element of a name. -/
def openings (name t : Text) : Nat := (tags t).countP fun inner => tagName inner = name

/-- Number of tags that close an element of a name. -/
def closings (name t : Text) : Nat := (tags t).countP fun inner => tagName inner = '/' :: name

/-- How many elements of a name a text opens more than it closes. -/
def balance (name t : Text) : Int := openings name t - closings name t

theorem balance_eq_zero_iff {name t : Text} :
    balance name t = 0 ↔ openings name t = closings name t := by
  unfold balance
  omega

/-- Whether the last `<` or `>` of a text is a `<`: what follows the text may make a tag of it. -/
def endsInTag (t : Text) : Bool := t.reverse.find? (fun c => c = '<' ∨ c = '>') = some '<'

/-- What one tag counts for a name. -/
def weight (name inner : Text) : Int :=
  (if tagName inner = name then 1 else 0) - (if tagName inner = '/' :: name then 1 else 0)

theorem balance_eq_sum (name t : Text) : balance name t = ((tags t).map (weight name)).sum := by
  unfold balance openings closings
  induction tags t with
  | nil => rfl
  | cons inner rest ih =>
    rw [List.map_cons, List.sum_cons, ← ih, List.countP_cons, List.countP_cons, weight]
    push_cast
    simp only [decide_eq_true_eq]
    split_ifs <;> ring

/-- Where a reading for tags stands: what it has read of a tag, if it is in one, and what the tags
before it count. -/
structure TagReader where
  inner : Option Text
  total : Int
  deriving DecidableEq, Repr

namespace TagReader

def step (name : Text) (r : TagReader) (c : Char) : TagReader :=
  match r.inner with
  | none => if c = '<' then ⟨some [], r.total⟩ else r
  | some inner =>
    if c = '>' then ⟨none, r.total + weight name inner⟩
    else if c = '<' then ⟨some [], r.total⟩
    else ⟨some (inner ++ [c]), r.total⟩

def read (name : Text) (r : TagReader) (t : Text) : TagReader := t.foldl (step name) r

variable {name : Text}

@[simp] theorem read_nil (r : TagReader) : read name r [] = r := rfl

theorem read_cons (r : TagReader) (c : Char) (t : Text) :
    read name r (c :: t) = read name (step name r c) t := rfl

theorem read_append (r : TagReader) (t u : Text) :
    read name r (t ++ u) = read name (read name r t) u := List.foldl_append

theorem step_add (inner : Option Text) (total k : Int) (c : Char) :
    step name ⟨inner, total + k⟩ c =
      ⟨(step name ⟨inner, total⟩ c).inner, (step name ⟨inner, total⟩ c).total + k⟩ := by
  cases inner with
  | none => by_cases hc : c = '<' <;> simp [step, hc]
  | some inner =>
    by_cases hclose : c = '>'
    · simp only [step, hclose, if_true]
      congr 1
      ring
    · by_cases hopen : c = '<' <;> simp [step, hclose, hopen]

theorem read_add (inner : Option Text) (total k : Int) (t : Text) :
    read name ⟨inner, total + k⟩ t =
      ⟨(read name ⟨inner, total⟩ t).inner, (read name ⟨inner, total⟩ t).total + k⟩ := by
  induction t generalizing inner total with
  | nil => rfl
  | cons c t ih =>
    rw [read_cons, read_cons, step_add]
    exact ih _ _

theorem read_tag (total : Int) {inner : Text} (hopen : '<' ∉ inner) (hclose : '>' ∉ inner)
    (before rest : Text) :
    read name ⟨some before, total⟩ (inner ++ '>' :: rest) =
      read name ⟨none, total + weight name (before ++ inner)⟩ rest := by
  induction inner generalizing before with
  | nil => simp [read_cons, step]
  | cons c inner ih =>
    simp only [List.mem_cons, not_or] at hopen hclose
    rw [List.cons_append, read_cons]
    have hstep : step name ⟨some before, total⟩ c = ⟨some (before ++ [c]), total⟩ := by
      simp [step, Ne.symm hopen.1, Ne.symm hclose.1]
    rw [hstep, ih hopen.2 hclose.2, List.append_assoc]
    rfl

/-- A `<` that begins no tag changes nothing in what a text adds up. -/
theorem total_read_of_afterTag? {t : Text} (h : afterTag? t = none) (inner : Text) (total : Int) :
    (read name ⟨some inner, total⟩ t).total = (read name ⟨none, total⟩ t).total := by
  induction t generalizing inner with
  | nil => rfl
  | cons c t ih =>
    simp only [afterTag?] at h
    split at h
    · simp at h
    next hclose =>
      split at h
      next hopen => simp [read_cons, step, hopen]
      next hopen =>
        rw [read_cons, read_cons]
        simpa [step, hclose, hopen] using ih h (inner ++ [c])

theorem total_read (total : Int) (t : Text) :
    (read name ⟨none, total⟩ t).total = total + balance name t := by
  rw [balance_eq_sum, tags]
  fun_induction tokens t generalizing total with
  | case1 => simp
  | case2 t rest h ih =>
    obtain ⟨ht, hopen⟩ := afterTag?_eq_some_iff.1 h
    have hclose : '>' ∉ t.takeWhile (· != '>') := by
      intro hmem
      have := List.mem_takeWhile_imp hmem
      simp at this
    have hread : read name ⟨none, total⟩ ('<' :: t) =
        read name ⟨none, total + weight name (t.takeWhile (· != '>'))⟩ rest := by
      conv_lhs => rw [ht]
      exact read_tag total hopen hclose [] rest
    rw [hread, ih]
    simp [Token.tag?, add_assoc]
  | case3 t h ih =>
    rw [read_cons]
    have hstep : step name ⟨none, total⟩ '<' = ⟨some [], total⟩ := rfl
    rw [hstep, total_read_of_afterTag? h, ih]
    rfl
  | case4 c t h ih =>
    have hstep : step name ⟨none, total⟩ c = ⟨none, total⟩ := by simp [step, h]
    rw [read_cons, hstep, ih]
    rfl

/-- A reading from outside is in a tag at the end of the texts that end in one. -/
theorem isSome_inner_read (total : Int) (t : Text) :
    (read name ⟨none, total⟩ t).inner.isSome = endsInTag t := by
  induction t using List.reverseRecOn with
  | nil => rfl
  | append_singleton t c ih =>
    rw [read_append, read_cons, read_nil]
    unfold endsInTag at ih ⊢
    rw [List.reverse_concat, List.find?_cons]
    generalize read name ⟨none, total⟩ t = r at ih ⊢
    obtain ⟨inner, k⟩ := r
    by_cases hopen : c = '<'
    · cases inner <;> simp [step, hopen]
    by_cases hclose : c = '>'
    · cases inner <;> simp [step, hclose]
    · cases inner <;> simpa [step, hopen, hclose] using ih

/-- The characters that mean something outside tags to a stage of rendering. No stage writes one of
them into a tag. -/
def guarded : List Char := ['<', '$', '\\', '\n', '*', '\x60', '~', '\ue000']

/-- A step that fails where a guarded character stands in a tag. -/
def step? (name : Text) (r : TagReader) (c : Char) : Option TagReader :=
  if r.inner.isSome = true ∧ c ∈ guarded then none else some (step name r c)

def read? (name : Text) (r : TagReader) (t : Text) : Option TagReader := t.foldlM (step? name) r

@[simp] theorem read?_nil (r : TagReader) : read? name r [] = some r := rfl

theorem read?_cons (r : TagReader) (c : Char) (t : Text) :
    read? name r (c :: t) = (step? name r c).bind fun r => read? name r t := rfl

theorem read?_append (r : TagReader) (t u : Text) :
    read? name r (t ++ u) = (read? name r t).bind fun r => read? name r u := List.foldlM_append

/-- Behind a character that stays, one text may stand for another that is read to the same end. -/
theorem read?_cons_of {r e : TagReader} {c : Char} {t u : Text} (h : read? name r (c :: t) = some e)
    (hrest : ∀ m, read? name m t = some e → read? name m u = some e) :
    read? name r (c :: u) = some e := by
  rw [read?_cons] at h ⊢
  obtain ⟨m, hm, ht⟩ := Option.bind_eq_some_iff.1 h
  rw [hm, Option.bind_some]
  exact hrest m ht

theorem read_of_read? {r e : TagReader} {t : Text} (h : read? name r t = some e) :
    read name r t = e := by
  induction t generalizing r with
  | nil => exact Option.some.inj h
  | cons c t ih =>
    rw [read?_cons] at h
    obtain ⟨m, hm, hrest⟩ := Option.bind_eq_some_iff.1 h
    unfold step? at hm
    split at hm
    · simp at hm
    · rw [read_cons, Option.some.inj hm, ih hrest]

theorem total_of_read? {total : Int} {e : TagReader} {t : Text}
    (h : read? name ⟨none, total⟩ t = some e) : e.total = total + balance name t := by
  rw [← total_read, read_of_read? h]

theorem inner_eq_none_of_read? {r e : TagReader} {c : Char} {t : Text} (hc : c ∈ guarded)
    (h : read? name r (c :: t) = some e) : r.inner = none := by
  rw [read?_cons] at h
  obtain ⟨m, hm, -⟩ := Option.bind_eq_some_iff.1 h
  unfold step? at hm
  by_contra hne
  rw [if_pos ⟨Option.isSome_iff_ne_none.2 hne, hc⟩] at hm
  simp at hm

theorem read?_of_no_open {t : Text} (h : '<' ∉ t) (total : Int) :
    read? name ⟨none, total⟩ t = some ⟨none, total⟩ := by
  induction t with
  | nil => rfl
  | cons c t ih =>
    simp only [List.mem_cons, not_or] at h
    rw [read?_cons]
    simpa [step?, step, Ne.symm h.1] using ih h.2

theorem read?_add {inner : Option Text} {total : Int} (k : Int) {t : Text} {e : TagReader}
    (h : read? name ⟨inner, total⟩ t = some e) :
    read? name ⟨inner, total + k⟩ t = some ⟨e.inner, e.total + k⟩ := by
  induction t generalizing inner total with
  | nil =>
    obtain rfl := Option.some.inj h
    rfl
  | cons c t ih =>
    rw [read?_cons] at h ⊢
    obtain ⟨m, hm, hrest⟩ := Option.bind_eq_some_iff.1 h
    unfold step? at hm ⊢
    split at hm
    · simp at hm
    next hguard =>
      rw [if_neg hguard, Option.bind_some, step_add, Option.some.inj hm]
      exact ih hrest

theorem read?_of_no_guarded {t : Text} (h : ∀ c ∈ t, c ∉ guarded) (r : TagReader) :
    read? name r t = some (read name r t) := by
  induction t generalizing r with
  | nil => rfl
  | cons c t ih =>
    have hstep : step? name r c = some (step name r c) :=
      if_neg fun hc => h c List.mem_cons_self hc.2
    rw [read?_cons, hstep]
    exact ih (fun d hd => h d (List.mem_cons_of_mem _ hd)) _

theorem isSome_inner_of_read? {inner t : Text} {total : Int} {e : TagReader}
    (h : afterTag? t = none) (hread : read? name ⟨some inner, total⟩ t = some e) :
    e.inner.isSome = true := by
  induction t generalizing inner with
  | nil =>
    obtain rfl := Option.some.inj hread
    rfl
  | cons c t ih =>
    rw [read?_cons] at hread
    obtain ⟨m, hm, hrest⟩ := Option.bind_eq_some_iff.1 hread
    simp only [afterTag?] at h
    split at h
    · simp at h
    next hclose =>
      split at h
      next hopen => simp [step?, hopen, guarded] at hm
      next hopen =>
        have hstep : step name ⟨some inner, total⟩ c = ⟨some (inner ++ [c]), total⟩ := by
          simp [step, hclose, hopen]
        unfold step? at hm
        split at hm
        · simp at hm
        · rw [hstep] at hm
          obtain rfl := Option.some.inj hm
          exact ih h hrest

/-- A tag that holds nothing guarded counts for what it is. -/
theorem read?_tag {inner : Text} (hclose : '>' ∉ inner) (hguard : ∀ c ∈ inner, c ∉ guarded)
    (total : Int) :
    read? name ⟨none, total⟩ ('<' :: (inner ++ ['>'])) =
      some ⟨none, total + weight name inner⟩ := by
  have hopen : '<' ∉ inner := fun h => hguard _ h (by decide)
  have hmore : ∀ c ∈ inner ++ ['>'], c ∉ guarded := by
    intro c hc
    rcases List.mem_append.1 hc with hc | hc
    · exact hguard c hc
    · rw [List.mem_singleton.1 hc]
      decide
  have hstep : step? name ⟨none, total⟩ '<' = some ⟨some [], total⟩ := rfl
  rw [read?_cons, hstep, Option.bind_some, read?_of_no_guarded hmore, read_tag total hopen hclose]
  rfl

end TagReader

/-- The names that a tag can have: a name that began with a slash would be a closing tag's. -/
def IsName (name : Text) : Prop := name.head? ≠ some '/'

instance (name : Text) : Decidable (IsName name) :=
  inferInstanceAs (Decidable (name.head? ≠ some '/'))

theorem tagName_append {element attributes : Text}
    (helement : ∀ c ∈ element, Text.isBlank c = false)
    (hattributes : attributes = [] ∨ ∃ rest, attributes = ' ' :: rest) :
    tagName (element ++ attributes) = element := by
  have hnot : ∀ c ∈ element, (!Text.isBlank c) = true := fun c hc => by simp [helement c hc]
  have hend : tagName attributes = [] := by
    rcases hattributes with rfl | ⟨rest, rfl⟩
    · rfl
    · rfl
  unfold tagName at hend ⊢
  rw [List.takeWhile_append_of_pos hnot, hend, List.append_nil]

theorem weight_add_weight {name element attributes : Text} (hname : IsName name)
    (helement : ∀ c ∈ element, Text.isBlank c = false) (hslash : IsName element)
    (hattributes : attributes = [] ∨ ∃ rest, attributes = ' ' :: rest) :
    weight name (element ++ attributes) + weight name ('/' :: element) = 0 := by
  have hclosing : tagName ('/' :: element) = '/' :: element := by
    have hall : ∀ c ∈ '/' :: element, Text.isBlank c = false := by
      simpa [show Text.isBlank '/' = false by decide] using helement
    simpa using tagName_append hall (.inl rfl)
  have hne : element ≠ '/' :: name := by
    rintro rfl
    exact hslash rfl
  have hne' : '/' :: element ≠ name := by
    rintro rfl
    exact hname rfl
  unfold weight
  rw [tagName_append helement hattributes, hclosing, if_neg hne, if_neg hne']
  simp

/-- What an element is called and given, written as it stands in a tag. -/
structure IsElement (element given : Text) : Prop where
  slash : IsName element
  blank : ∀ c ∈ element, Text.isBlank c = false
  apart : given = [] ∨ given.head? = some ' '
  tag : ∀ c ∈ element ++ given, c ≠ '<' ∧ c ≠ '>'

theorem isElement_iff {element given : Text} :
    IsElement element given ↔ IsName element ∧
      (∀ c ∈ element, Text.isBlank c = false) ∧ (given = [] ∨ given.head? = some ' ') ∧
        ∀ c ∈ element ++ given, c ≠ '<' ∧ c ≠ '>' :=
  ⟨fun h => ⟨h.slash, h.blank, h.apart, h.tag⟩, fun h => ⟨h.1, h.2.1, h.2.2.1, h.2.2.2⟩⟩

instance (element given : Text) : Decidable (IsElement element given) :=
  decidable_of_iff' _ isElement_iff

/-- An element that is told by nothing guarded. -/
structure IsClear (element given : Text) : Prop extends IsElement element given where
  guard : ∀ c ∈ element ++ given, c ∉ TagReader.guarded

theorem isClear_iff {element given : Text} :
    IsClear element given ↔
      IsElement element given ∧ ∀ c ∈ element ++ given, c ∉ TagReader.guarded :=
  ⟨fun h => ⟨h.toIsElement, h.guard⟩, fun h => ⟨h.1, h.2⟩⟩

instance (element given : Text) : Decidable (IsClear element given) :=
  decidable_of_iff' _ isClear_iff

def openTag (element given : Text) : Text := '<' :: (element ++ given ++ ['>'])

def closeTag (element : Text) : Text := '<' :: ('/' :: element ++ ['>'])

theorem element_eq (element content : Text) :
    openTag element [] ++ content ++ closeTag element =
      ['<'] ++ element ++ ['>'] ++ content ++ "</".toList ++ element ++ ['>'] := by
  have hslash : "</".toList = ['<', '/'] := by decide
  rw [hslash]
  simp [openTag, closeTag]

namespace IsElement

variable {element given : Text}

theorem open_notMem (h : IsElement element given) : '<' ∉ element ++ given :=
  fun hmem => (h.tag _ hmem).1 rfl

theorem close_notMem (h : IsElement element given) : '>' ∉ element ++ given :=
  fun hmem => (h.tag _ hmem).2 rfl

theorem closing_notMem (h : IsElement element given) :
    '<' ∉ '/' :: element ∧ '>' ∉ '/' :: element := by
  refine ⟨fun hmem => ?_, fun hmem => ?_⟩
  · exact h.open_notMem (List.mem_append_left _ (by simpa using hmem))
  · exact h.close_notMem (List.mem_append_left _ (by simpa using hmem))

theorem weight_cancel {name : Text} (hname : IsName name) (h : IsElement element given) :
    weight name (element ++ given) + weight name ('/' :: element) = 0 :=
  weight_add_weight hname h.blank h.slash
    (h.apart.imp_right fun hhead => List.head?_eq_some_iff.1 hhead)

end IsElement

namespace TagReader

variable {name element given content : Text} {total total' : Int}

theorem read_element (hname : IsName name) (h : IsElement element given)
    (hcontent : read name ⟨none, total⟩ content = ⟨none, total'⟩) :
    read name ⟨none, total⟩ (openTag element given ++ content ++ closeTag element) =
      ⟨none, total'⟩ := by
  have hopening : read name ⟨none, total⟩ (openTag element given) =
      ⟨none, total + weight name (element ++ given)⟩ :=
    read_tag total h.open_notMem h.close_notMem [] []
  have hclosing : read name ⟨none, total' + weight name (element ++ given)⟩ (closeTag element) =
      ⟨none, total' + weight name (element ++ given) + weight name ('/' :: element)⟩ :=
    read_tag _ h.closing_notMem.1 h.closing_notMem.2 [] []
  rw [read_append, read_append, hopening, read_add, hcontent, hclosing, add_assoc,
    h.weight_cancel hname, add_zero]

theorem read?_element (hname : IsName name) (h : IsClear element given)
    (hcontent : read? name ⟨none, total⟩ content = some ⟨none, total'⟩) :
    read? name ⟨none, total⟩ (openTag element given ++ content ++ closeTag element) =
      some ⟨none, total'⟩ := by
  have hguard' : ∀ c ∈ '/' :: element, c ∉ guarded := by
    intro c hc
    rcases List.mem_cons.1 hc with rfl | hc
    · decide
    · exact h.guard c (List.mem_append_left _ hc)
  have hshift := read?_add (weight name (element ++ given)) hcontent
  rw [read?_append, read?_append, openTag, read?_tag h.close_notMem h.guard, Option.bind_some,
    hshift, Option.bind_some, closeTag, read?_tag h.closing_notMem.2 hguard', add_assoc,
    h.weight_cancel hname, add_zero]

end TagReader

/-- A text that begins and ends outside tags, with nothing guarded in its tags. -/
def Neat (name t : Text) : Prop := ∃ k, TagReader.read? name ⟨none, 0⟩ t = some ⟨none, k⟩

namespace Neat

open TagReader

variable {name t u : Text}

theorem read? (h : Neat name t) (total : Int) :
    read? name ⟨none, total⟩ t = some ⟨none, total + balance name t⟩ := by
  obtain ⟨k, hk⟩ := h
  have hshift := read?_add total hk
  rw [zero_add] at hshift
  have htotal := total_of_read? hshift
  rw [hshift, ← htotal]

theorem of_read? {total total' : Int}
    (h : TagReader.read? name ⟨none, total⟩ t = some ⟨none, total'⟩) : Neat name t := by
  have hshift := read?_add (-total) h
  rw [add_neg_cancel] at hshift
  exact ⟨_, hshift⟩

theorem balance_eq {k : Int} (h : TagReader.read? name ⟨none, 0⟩ t = some ⟨none, k⟩) :
    balance name t = k := by
  rw [← zero_add (balance name t)]
  exact (total_of_read? h).symm

theorem of_no_open (h : '<' ∉ t) : Neat name t := ⟨0, read?_of_no_open h 0⟩

theorem balance_append (h : Neat name t) (u : Text) :
    balance name (t ++ u) = balance name t + balance name u := by
  have htotal : (read name ⟨none, 0⟩ (t ++ u)).total = 0 + balance name (t ++ u) := total_read 0 _
  rw [read_append, read_of_read? (h.read? 0), total_read] at htotal
  linarith

theorem append (h : Neat name t) (h' : Neat name u) : Neat name (t ++ u) := by
  have hread : TagReader.read? name ⟨none, 0⟩ (t ++ u) =
      some ⟨none, 0 + balance name t + balance name u⟩ := by
    rw [read?_append, h.read?, Option.bind_some, h'.read?]
  exact .of_read? hread

theorem of_append (h : Neat name (t ++ u)) (ht : Neat name t) : Neat name u := by
  have hread := h.read? 0
  rw [read?_append, ht.read?, Option.bind_some] at hread
  exact .of_read? hread

theorem cut {c : Char} (hc : c ∈ guarded) (h : Neat name (t ++ c :: u)) :
    Neat name t ∧ Neat name (c :: u) := by
  have hread := h.read? 0
  rw [read?_append] at hread
  obtain ⟨m, hm, hrest⟩ := Option.bind_eq_some_iff.1 hread
  obtain ⟨inner, total⟩ := m
  obtain rfl : inner = none := inner_eq_none_of_read? hc hrest
  exact ⟨.of_read? hm, .of_read? hrest⟩

theorem of_append_right (h : Neat name (t ++ u)) (hclose : '>' ∉ u) : Neat name t := by
  have hread := h.read? 0
  rw [read?_append] at hread
  obtain ⟨⟨inner, total⟩, hm, hrest⟩ := Option.bind_eq_some_iff.1 hread
  cases inner with
  | none => exact .of_read? hm
  | some inner =>
    have hnone : afterTag? u = none := by
      refine Option.eq_none_iff_forall_ne_some.2 fun rest hrest' => hclose ?_
      rw [(afterTag?_eq_some_iff.1 hrest').1]
      simp
    simpa using isSome_inner_of_read? hnone hrest

theorem element {element given content : Text} (hname : IsName name) (h : IsClear element given)
    (hcontent : Neat name content) :
    Neat name (openTag element given ++ content ++ closeTag element) ∧
      balance name (openTag element given ++ content ++ closeTag element) =
        balance name content := by
  have hread := read?_element hname h (hcontent.read? 0)
  rw [zero_add] at hread
  exact ⟨.of_read? hread, balance_eq hread⟩

/-- Stripping leaves no `<` in a neat text. -/
theorem noOpen_stripTags (h : Neat name t) : '<' ∉ stripTags t := by
  obtain ⟨k, hk⟩ := h
  rw [stripTags_eq]
  generalize (0 : Int) = total at hk
  fun_induction tokens t generalizing total with
  | case1 => simp
  | case2 t rest h ih =>
    obtain ⟨ht, hopen⟩ := afterTag?_eq_some_iff.1 h
    have hclose : '>' ∉ t.takeWhile (· != '>') := by
      intro hmem
      have := List.mem_takeWhile_imp hmem
      simp at this
    rw [ht, List.append_cons, ← List.cons_append, read?_append] at hk
    obtain ⟨m, hm, hrest⟩ := Option.bind_eq_some_iff.1 hk
    have htag : read name ⟨none, total⟩ ('<' :: (t.takeWhile (· != '>') ++ ['>'])) = _ :=
      read_tag total hopen hclose [] []
    rw [← read_of_read? hm, htag] at hrest
    exact ih _ hrest
  | case3 t h ih =>
    rw [read?_cons] at hk
    have hstep : step? name ⟨none, total⟩ '<' = some ⟨some [], total⟩ := rfl
    rw [hstep, Option.bind_some] at hk
    simpa using isSome_inner_of_read? h hk
  | case4 c t h ih =>
    have hstep : step? name ⟨none, total⟩ c = some ⟨none, total⟩ := by simp [step?, step, h]
    rw [read?_cons, hstep, Option.bind_some] at hk
    simpa [Token.char?, Ne.symm h] using ih _ hk

end Neat

theorem balance_of_no_open {name t : Text} (h : '<' ∉ t) : balance name t = 0 :=
  Neat.balance_eq (TagReader.read?_of_no_open h 0)

end ExamMarkup.Html
