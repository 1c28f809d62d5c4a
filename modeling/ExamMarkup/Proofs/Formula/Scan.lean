import ExamMarkup.Proofs.Formula.Places
import ExamMarkup.Proofs.Text.Utf8

/-!
# Scanning finds the formulas of a text

The places found in the bytes of a text are those of the segments that the text is cut into. A scan
passes over a character that it does not look for one byte after the other; where it skips into the
middle of one, the bytes left of it stand for nothing.
-/

namespace ExamMarkup.Formula.Scan

open Text (utf8)

/-- Bytes that no scan looks for. -/
def Quiet (bytes : Bytes) : Prop := ∀ b ∈ bytes, b ≠ dollar ∧ b ≠ backslash ∧ b ≠ lineFeed

theorem quiet_utf8EncodeChar {c : Char} (hdollar : c ≠ '$') (hslash : c ≠ '\\')
    (hline : c ≠ '\n') : Quiet (String.utf8EncodeChar c) := by
  intro b hb
  refine ⟨?_, ?_, ?_⟩
  · rintro rfl
    exact hdollar (Text.eq_of_mem_utf8EncodeChar (by decide) hb)
  · rintro rfl
    exact hslash (Text.eq_of_mem_utf8EncodeChar (by decide) hb)
  · rintro rfl
    exact hline (Text.eq_of_mem_utf8EncodeChar (by decide) hb)

/-- What is left of a character after its first byte stands for nothing. -/
theorem exists_utf8EncodeChar_eq (c : Char) :
    ∃ b bytes, String.utf8EncodeChar c = b :: bytes ∧ Quiet bytes ∧
      (b < 0x80 ∨ 0xc0 ≤ b) := by
  by_cases hc : c.toNat < 128
  · refine ⟨_, [], Text.utf8EncodeChar_of_ascii hc, by simp [Quiet], .inl ?_⟩
    apply UInt8.lt_iff_toNat_lt.2
    simp only [UInt8.toNat_ofNat', UInt8.reduceToNat]
    omega
  · obtain ⟨b, bytes, heq, hb, hbytes⟩ := Text.utf8EncodeChar_of_not_ascii (Nat.le_of_not_lt hc)
    refine ⟨b, bytes, heq, ?_, .inr (UInt8.le_iff_toNat_le.2 hb)⟩
    intro d hd
    have hhigh := hbytes d hd
    refine ⟨?_, ?_, ?_⟩
    all_goals
      rintro rfl
      exact absurd hhigh (by decide)

/-- The form of a text begins with no byte that continues a character. -/
theorem atCharacter_utf8 (t : Text) : atCharacter (utf8 t) = true := by
  cases t with
  | nil => rfl
  | cons c t =>
    obtain ⟨b, bytes, heq, -, hb⟩ := exists_utf8EncodeChar_eq c
    rw [Text.utf8_cons, heq]
    simpa [atCharacter] using hb

theorem head?_utf8_iff {d : Char} (hd : d.toNat < 128) (t : Text) :
    (utf8 t).head? = some (UInt8.ofNat d.toNat) ↔ t.head? = some d := by
  cases t with
  | nil => simp
  | cons c t =>
    rw [Text.utf8_cons, List.head?_append, List.head?_cons]
    obtain ⟨b, bytes, heq, -, -⟩ := exists_utf8EncodeChar_eq c
    rw [heq, List.head?_cons, Option.some_or]
    constructor
    · intro h
      have hmem : UInt8.ofNat d.toNat ∈ String.utf8EncodeChar c := by
        rw [heq, ← Option.some.inj h]
        exact List.mem_cons_self
      rw [Text.eq_of_mem_utf8EncodeChar hd hmem]
    · intro h
      obtain rfl := Option.some.inj h
      rw [Text.utf8EncodeChar_of_ascii hd] at heq
      rw [(List.cons.inj heq).1]

theorem head?_utf8_dollar (t : Text) : (utf8 t).head? = some dollar ↔ t.head? = some '$' :=
  @head?_utf8_iff '$' (by decide) t

theorem head?_utf8_line (t : Text) : (utf8 t).head? = some lineFeed ↔ t.head? = some '\n' :=
  @head?_utf8_iff '\n' (by decide) t

section Display

theorem cutDollars?_cons {b : UInt8} {bytes : Bytes}
    (h : b = dollar → bytes.head? ≠ some dollar) :
    cutDollars? (b :: bytes) =
      (cutDollars? bytes).map fun (before, rest) => (b :: before, rest) := by
  rw [cutDollars?, if_neg]
  rintro ⟨hb, hhead⟩
  exact h hb hhead

theorem cutDollars?_append {bytes : Bytes} (h : dollar ∉ bytes) (rest : Bytes) :
    cutDollars? (bytes ++ rest) =
      (cutDollars? rest).map fun (before, rest) => (bytes ++ before, rest) := by
  induction bytes with
  | nil => simp
  | cons b bytes ih =>
    simp only [List.mem_cons, not_or] at h
    rw [List.cons_append, cutDollars?_cons fun hb => absurd hb.symm h.1, ih h.2, Option.map_map]
    rfl

/-- No `$$` begins at a character that is no `$` or that no `$` follows. -/
theorem cutDollars?_utf8_cons {c : Char} {t : Text} (h : c = '$' → t.head? ≠ some '$') :
    cutDollars? (utf8 (c :: t)) =
      (cutDollars? (utf8 t)).map fun (before, rest) =>
        (String.utf8EncodeChar c ++ before, rest) := by
  by_cases hc : c = '$'
  · subst hc
    apply cutDollars?_cons
    intro _ hhead
    exact h rfl ((head?_utf8_dollar t).1 hhead)
  · apply cutDollars?_append
    intro hmem
    exact hc (Text.eq_of_mem_utf8EncodeChar (by decide) hmem)

theorem findDouble?_eq (last : Option UInt8) (position : Nat) {bytes : Bytes}
    (h : atCharacter bytes = true) :
    findDouble? last position bytes =
      (cutDollars? bytes).bind fun (before, rest) =>
        if (last.toList ++ before).getLast? = some backslash then
          findDouble? (some dollar) (position + before.length + 1) (dollar :: rest)
        else some (position + before.length, rest) := by
  rw [findDouble?, if_pos h]
  split
  next hcut => rw [hcut]; rfl
  next before rest hcut => rw [hcut]; rfl

theorem findDouble?_utf8_cons {c : Char} {t : Text} (h : c = '$' → t.head? ≠ some '$')
    (last : Option UInt8) (position : Nat) :
    findDouble? last position (utf8 (c :: t)) =
      findDouble? (String.utf8EncodeChar c).getLast? (position + c.utf8Size) (utf8 t) := by
  rw [findDouble?_eq last position (atCharacter_utf8 _), findDouble?_eq _ _ (atCharacter_utf8 t),
    cutDollars?_utf8_cons h, Option.bind_map]
  congr 1
  funext ⟨before, rest⟩
  have hlast : (last.toList ++ (String.utf8EncodeChar c ++ before)).getLast? =
      ((String.utf8EncodeChar c).getLast?.toList ++ before).getLast? := by
    obtain ⟨b, bytes, heq, -, -⟩ := exists_utf8EncodeChar_eq c
    rw [heq, List.getLast?_append, List.getLast?_append, List.getLast?_append,
      List.getLast?_cons, Option.toList_some, List.getLast?_singleton]
    cases before.getLast? <;> rfl
  simp only [Function.comp_apply, hlast, List.length_append, String.length_utf8EncodeChar,
    Nat.add_assoc]

theorem getLast?_utf8EncodeChar_iff (c : Char) :
    (String.utf8EncodeChar c).getLast? = some backslash ↔ c = '\\' := by
  constructor
  · intro h
    exact Text.eq_of_mem_utf8EncodeChar (by decide) (List.mem_of_getLast? h)
  · rintro rfl
    rfl

theorem cutDouble?_of_not_dollars {c : Char} {t : Text} (h : c = '$' → t.head? ≠ some '$')
    (escaped : Bool) :
    cutDouble? escaped (c :: t) =
      (cutDouble? (c == '\\') t).map fun (before, rest) => (c :: before, rest) := by
  rw [cutDouble?]
  intro u _ hc ht
  exact h hc (by rw [ht]; rfl)

theorem findDouble?_utf8_dollars {last : Option UInt8} (hlast : last ≠ some backslash)
    (position : Nat) (t : Text) :
    findDouble? last position (utf8 ('$' :: '$' :: t)) = some (position, utf8 t) := by
  have hcut : cutDollars? (utf8 ('$' :: '$' :: t)) = some ([], utf8 t) := rfl
  have hnone : (last.toList ++ []).getLast? ≠ some backslash := by
    cases last with
    | none => simp
    | some b => simpa using hlast
  rw [findDouble?_eq _ _ (atCharacter_utf8 _), hcut, Option.bind_some]
  exact if_neg hnone

/-- After an escaped `$$` the search goes on at its second `$`. -/
theorem findDouble?_utf8_escaped (position : Nat) (t : Text) :
    findDouble? (some backslash) position (utf8 ('$' :: '$' :: t)) =
      findDouble? (some dollar) (position + 1) (utf8 ('$' :: t)) := by
  have hcut : cutDollars? (utf8 ('$' :: '$' :: t)) = some ([], utf8 t) := rfl
  rw [findDouble?_eq _ _ (atCharacter_utf8 _), hcut, Option.bind_some]
  exact if_pos rfl

/-- The search in the bytes finds what the text is cut at. -/
theorem findDouble?_utf8 (last : Option UInt8) (position : Nat) (t : Text) :
    findDouble? last position (utf8 t) =
      (cutDouble? (last == some backslash) t).map fun (before, rest) =>
        (position + before.byteSize, utf8 rest) := by
  induction t generalizing last position with
  | nil => rw [findDouble?_eq _ _ (atCharacter_utf8 [])]; rfl
  | cons c t ih =>
    by_cases hpair : c = '$' ∧ t.head? = some '$'
    · obtain ⟨rfl, hhead⟩ := hpair
      obtain ⟨t, rfl⟩ := List.head?_eq_some_iff.1 hhead
      by_cases hlast : last = some backslash
      · subst hlast
        rw [findDouble?_utf8_escaped, ih, beq_self_eq_true, cutDouble?_escaped, Option.map_map]
        congr 1
        funext ⟨before, rest⟩
        have hone : '$'.utf8Size = 1 := rfl
        simp [Nat.add_assoc, hone]
      · rw [findDouble?_utf8_dollars hlast, beq_false_of_ne hlast, cutDouble?_dollars]
        rfl
    · have hnot : c = '$' → t.head? ≠ some '$' := fun hc hhead => hpair ⟨hc, hhead⟩
      have hescaped : ((String.utf8EncodeChar c).getLast? == some backslash) = (c == '\\') := by
        rw [Bool.eq_iff_iff, beq_iff_eq, beq_iff_eq]
        exact getLast?_utf8EncodeChar_iff c
      rw [findDouble?_utf8_cons hnot, ih, cutDouble?_of_not_dollars hnot, hescaped, Option.map_map]
      congr 1
      funext ⟨before, rest⟩
      simp [Nat.add_assoc]

theorem displayPlaces_eq (last : Option UInt8) (position : Nat) (bytes : Bytes) :
    displayPlaces last position bytes =
      match findDouble? last position bytes with
      | none => []
      | some (start, inner) =>
        match findDouble? (some dollar) (start + 2) inner with
        | none => []
        | some (close, rest) =>
          ⟨start, close + 2, .display⟩ :: displayPlaces (some dollar) (close + 2) rest := by
  rw [displayPlaces]
  split
  next hopen => rw [hopen]
  next start inner hopen =>
    rw [hopen]
    dsimp only
    split
    next hclose => rw [hclose]
    next close rest hclose => rw [hclose]

theorem displayPlaces_utf8 {last : Option UInt8} (hlast : last ≠ some backslash) (position : Nat)
    (t : Text) :
    displayPlaces last position (utf8 t) = (spansFrom position (displays t)).map Span.place := by
  have hfind (last : Option UInt8) (hlast : last ≠ some backslash) (position : Nat) (u : Text) :=
    beq_false_of_ne hlast ▸ findDouble?_utf8 last position u
  have hdollar : some dollar ≠ some backslash := by decide
  fun_induction displays t generalizing last position with
  | case1 t hopen =>
    rw [displayPlaces_eq, hfind last hlast, hopen]
    rfl
  | case2 t gap inner hopen hclose =>
    rw [displayPlaces_eq, hfind last hlast, hopen, Option.map_some]
    dsimp only
    rw [hfind _ hdollar, hclose]
    rfl
  | case3 t gap inner hopen source rest hclose ih =>
    rw [displayPlaces_eq, hfind last hlast, hopen, Option.map_some]
    dsimp only
    rw [hfind _ hdollar, hclose, Option.map_some]
    dsimp only
    rw [ih hdollar]
    have hstop : position + gap.byteSize + 2 + source.byteSize + 2 =
        position + gap.byteSize + (Segment.formula .display source).text.byteSize := by
      have htwo : Text.byteSize ['$', '$'] = 2 := rfl
      simp only [Segment.text, Style.delimiter, Text.byteSize_append, htwo]
      omega
    rw [hstop]
    rfl

end Display

section Inline

theorem scanRegion_backslash (opened : Option Nat) (position : Nat) (bytes : Bytes) :
    scanRegion opened position (backslash :: bytes) =
      scanRegion opened (position + 2) bytes.tail := by
  rw [scanRegion.eq_def]
  exact if_pos rfl

theorem scanRegion_dollar_none (position : Nat) (bytes : Bytes) :
    scanRegion none position (dollar :: bytes) =
      if bytes.head? = some dollar then scanRegion none (position + 2) bytes.tail
      else scanRegion (some position) (position + 1) bytes := by
  rw [scanRegion.eq_def]
  rfl

theorem scanRegion_dollar_some {start position : Nat} (h : start + 1 < position) (bytes : Bytes) :
    scanRegion (some start) position (dollar :: bytes) =
      ⟨start, position + 1, .inline⟩ :: scanRegion none (position + 1) bytes := by
  rw [scanRegion.eq_def]
  exact if_pos h

theorem scanRegion_lineFeed (start position : Nat) (bytes : Bytes) :
    scanRegion (some start) position (lineFeed :: bytes) =
      if bytes.head? = some lineFeed then scanRegion none (position + 2) bytes.tail
      else scanRegion (some start) (position + 1) bytes := by
  rw [scanRegion.eq_def]
  by_cases h : bytes.head? = some lineFeed <;> simp_all [lineFeed, backslash, dollar]

theorem scanRegion_lineFeed_none (position : Nat) (bytes : Bytes) :
    scanRegion none position (lineFeed :: bytes) = scanRegion none (position + 1) bytes := by
  rw [scanRegion.eq_def]
  simp [lineFeed, backslash, dollar]

theorem scanRegion_cons {b : UInt8} (hdollar : b ≠ dollar) (hslash : b ≠ backslash)
    (hline : b ≠ lineFeed) (opened : Option Nat) (position : Nat) (bytes : Bytes) :
    scanRegion opened position (b :: bytes) = scanRegion opened (position + 1) bytes := by
  rw [scanRegion.eq_def]
  simp [hdollar, hslash, hline]

theorem scanRegion_quiet {bytes : Bytes} (h : Quiet bytes) (opened : Option Nat) (position : Nat)
    (rest : Bytes) :
    scanRegion opened position (bytes ++ rest) =
      scanRegion opened (position + bytes.length) rest := by
  induction bytes generalizing position with
  | nil => rfl
  | cons b bytes ih =>
    obtain ⟨hdollar, hslash, hline⟩ := h b List.mem_cons_self
    have hrest : Quiet bytes := fun d hd => h d (List.mem_cons_of_mem _ hd)
    rw [List.cons_append, scanRegion_cons hdollar hslash hline, ih hrest, List.length_cons,
      Nat.add_right_comm, Nat.add_assoc position]

/-- The two bytes skipped at a backslash end at the next character or inside it. -/
theorem scanRegion_utf8_slash (opened : Option Nat) (position : Nat) (c : Char) (t : Text) :
    scanRegion opened position (utf8 ('\\' :: c :: t)) =
      scanRegion opened (position + (1 + c.utf8Size)) (utf8 t) := by
  obtain ⟨b, bytes, heq, hquiet, -⟩ := exists_utf8EncodeChar_eq c
  have hsize : bytes.length + 1 = c.utf8Size := by
    rw [← String.length_utf8EncodeChar, heq, List.length_cons]
  have hbytes : utf8 ('\\' :: c :: t) = backslash :: b :: (bytes ++ utf8 t) := by
    rw [Text.utf8_cons, Text.utf8_cons, heq]
    rfl
  rw [hbytes, scanRegion_backslash, List.tail_cons, scanRegion_quiet hquiet]
  congr 1
  omega

theorem scanRegion_utf8_slash_nil (opened : Option Nat) (position : Nat) :
    scanRegion opened position (utf8 ['\\']) = [] := by
  have hbytes : utf8 ['\\'] = [backslash] := rfl
  rw [hbytes, scanRegion_backslash, List.tail_nil, scanRegion]

/-- A scan passes over a character that is no `$`, escapes nothing and begins no blank line. -/
theorem scanRegion_utf8_pass {opened : Option Nat} {c : Char} {t : Text} (hdollar : c ≠ '$')
    (hslash : ∀ d u, c = '\\' → t = d :: u → False)
    (hline : opened = none ∨ ∀ u, c = '\n' → t = '\n' :: u → False) (position : Nat) :
    scanRegion opened position (utf8 (c :: t)) =
      scanRegion opened (position + c.utf8Size) (utf8 t) := by
  by_cases hs : c = '\\'
  · subst hs
    cases t with
    | nil => rw [scanRegion_utf8_slash_nil, Text.utf8_nil, scanRegion]
    | cons d u => exact (hslash d u rfl rfl).elim
  by_cases hn : c = '\n'
  · subst hn
    cases opened with
    | none => exact scanRegion_lineFeed_none position (utf8 t)
    | some start =>
      have hnext : (utf8 t).head? ≠ some lineFeed := by
        intro hhead
        obtain ⟨u, rfl⟩ := List.head?_eq_some_iff.1 ((head?_utf8_line t).1 hhead)
        exact hline.resolve_left (by simp) u rfl rfl
      exact (scanRegion_lineFeed start position (utf8 t)).trans (if_neg hnext)
  · rw [Text.utf8_cons, scanRegion_quiet (quiet_utf8EncodeChar hdollar hs hn),
      String.length_utf8EncodeChar]

/-- Behind an opening `$` at `start` a scan finds the formula that is cut off there. If there is
none, it goes on as if the `$` had opened nothing. -/
def ClosesAsCut (start position : Nat) (t : Text) : Prop :=
  scanRegion (some start) position (utf8 t) =
    match closeInline? t with
    | some (source, rest) =>
      ⟨start, position + source.byteSize + 1, .inline⟩ ::
        scanRegion none (position + source.byteSize + 1) (utf8 rest)
    | none => scanRegion none position (utf8 t)

/-- Characters that a scan passes over, and that belong to a formula as soon as one is cut off
behind them. -/
theorem ClosesAsCut.advance {start position : Nat} (lead : Text) {t : Text}
    (hscan : ∀ opened, scanRegion opened position (utf8 (lead ++ t)) =
      scanRegion opened (position + lead.byteSize) (utf8 t))
    (hcut : closeInline? (lead ++ t) =
      (closeInline? t).map fun (source, rest) => (lead ++ source, rest))
    (h : ClosesAsCut start (position + lead.byteSize) t) :
    ClosesAsCut start position (lead ++ t) := by
  unfold ClosesAsCut at h ⊢
  rw [hscan none, hscan (some start), h, hcut]
  cases closeInline? t with
  | none => rfl
  | some found => simp [Nat.add_assoc]

theorem closesAsCut {start position : Nat} {t : Text} (hlt : start < position)
    (hdollar : t.head? = some '$' → start + 1 < position) : ClosesAsCut start position t := by
  fun_induction closeInline? t generalizing position with
  | case1 =>
    change scanRegion (some start) position [] = scanRegion none position []
    rw [scanRegion, scanRegion]
  | case2 rest => exact scanRegion_dollar_some (hdollar rfl) (utf8 rest)
  | case3 c t ih =>
    have hpos := c.utf8Size_pos
    have hsize : Text.byteSize ['\\', c] = 1 + c.utf8Size := rfl
    apply ClosesAsCut.advance ['\\', c]
    · intro opened
      exact scanRegion_utf8_slash opened position c t
    · exact closeInline?_slash c t
    · apply ih <;> omega
  | case4 t =>
    change scanRegion (some start) position (lineFeed :: lineFeed :: utf8 t) =
      scanRegion none position (lineFeed :: lineFeed :: utf8 t)
    rw [scanRegion_lineFeed, scanRegion_lineFeed_none, scanRegion_lineFeed_none]
    rfl
  | case5 c t hne hslash hline ih =>
    have hpos := c.utf8Size_pos
    have hsize : Text.byteSize [c] = c.utf8Size := rfl
    apply ClosesAsCut.advance [c]
    · intro opened
      exact scanRegion_utf8_pass hne hslash (.inr hline) position
    · exact closeInline?.eq_5 c t hne hslash hline
    · apply ih <;> omega

theorem scanRegion_utf8_dollar {t : Text} (ht : t.head? ≠ some '$') (position : Nat) :
    scanRegion none position (utf8 ('$' :: t)) =
      match closeInline? t with
      | some (source, rest) =>
        ⟨position, position + 1 + source.byteSize + 1, .inline⟩ ::
          scanRegion none (position + 1 + source.byteSize + 1) (utf8 rest)
      | none => scanRegion none (position + 1) (utf8 t) := by
  change scanRegion none position (dollar :: utf8 t) = _
  rw [scanRegion_dollar_none, if_neg (mt (head?_utf8_dollar t).1 ht)]
  exact closesAsCut (Nat.lt_succ_self position) fun h => absurd h ht

theorem scanRegion_utf8 (position : Nat) (gap : Text) :
    scanRegion none position (utf8 gap) = (spansFrom position (inlines gap)).map Span.place := by
  have hhead {t : Text} (hne : ∀ u, t = '$' :: u → False) : t.head? ≠ some '$' := by
    intro hhead
    obtain ⟨u, rfl⟩ := List.head?_eq_some_iff.1 hhead
    exact hne u rfl
  fun_induction inlines gap generalizing position with
  | case1 =>
    rw [Text.utf8_nil, scanRegion]
    rfl
  | case2 c t ih =>
    rw [scanRegion_utf8_slash, ih, spansFrom_prepend]
    rfl
  | case3 t ih =>
    change scanRegion none position (dollar :: dollar :: utf8 t) = _
    rw [scanRegion_dollar_none, List.head?_cons, if_pos rfl, List.tail_cons, ih, spansFrom_prepend]
    rfl
  | case4 t hne source rest hclose ih =>
    have hstop : position + 1 + source.byteSize + 1 =
        position + (Segment.formula .inline source).text.byteSize := by
      have hone : Text.byteSize ['$'] = 1 := rfl
      simp only [Segment.text, Style.delimiter, Text.byteSize_append, hone]
      omega
    rw [scanRegion_utf8_dollar (hhead hne), hclose]
    dsimp only
    rw [ih, hstop]
    rfl
  | case5 t hne hclose ih =>
    rw [scanRegion_utf8_dollar (hhead hne), hclose]
    dsimp only
    rw [ih, spansFrom_prepend]
    rfl
  | case6 c t hslash _ hdollar ih =>
    rw [scanRegion_utf8_pass hdollar hslash (.inl rfl), ih, spansFrom_prepend]
    rfl

end Inline

section Order

theorem drop_utf8_append (lead t : Text) : (utf8 (lead ++ t)).drop lead.byteSize = utf8 t := by
  rw [Text.utf8_append, ← Text.length_utf8, List.drop_left]

theorem take_utf8_append (lead t : Text) : (utf8 (lead ++ t)).take lead.byteSize = utf8 lead := by
  rw [Text.utf8_append, ← Text.length_utf8, List.take_left]

theorem inlinePlaces_utf8 (lead t : Text) :
    inlinePlaces (utf8 (lead ++ t)) lead.byteSize
        ((spansFrom lead.byteSize (displays t)).map Span.place) =
      ((spansFrom lead.byteSize (segments t)).filter fun s => !s.isDisplay).map Span.place := by
  have hinline (offset : Nat) (gap : Text) :
      (spansFrom offset (inlines gap)).filter (fun s => !s.isDisplay) =
        spansFrom offset (inlines gap) := by
    apply List.filter_eq_self.2
    intro s hs
    simp [isDisplay_of_mem_inlines hs]
  have hlast (lead t : Text) : inlinePlaces (utf8 (lead ++ t)) lead.byteSize [] =
      ((spansFrom lead.byteSize (inlines t)).filter fun s => !s.isDisplay).map Span.place := by
    rw [inlinePlaces, drop_utf8_append, scanRegion_utf8, hinline]
  unfold segments
  fun_induction displays t generalizing lead with
  | case1 t hopen => exact List.flatMap_singleton .. ▸ hlast lead t
  | case2 t gap inner hopen hclose => exact List.flatMap_singleton .. ▸ hlast lead t
  | case3 t gap inner hopen source rest hclose ih =>
    let formula : Segment := .formula .display source
    have ht : t = gap ++ (formula.text ++ rest) := by
      rw [eq_of_cutDouble? hopen, eq_of_cutDouble? hclose]
      simp [formula, Segment.text, Style.delimiter]
    have hgap : ((utf8 (lead ++ t)).take (lead ++ gap).byteSize).drop lead.byteSize =
        utf8 gap := by
      rw [ht, ← List.append_assoc, take_utf8_append, drop_utf8_append]
    have hrest := ih (lead ++ gap ++ formula.text)
    have htext : lead ++ gap ++ formula.text ++ rest = lead ++ t := by simp [ht]
    rw [htext, Text.byteSize_append (lead ++ gap), Text.byteSize_append lead] at hrest
    rw [Text.byteSize_append] at hgap
    rw [List.flatMap_cons, spansFrom_append, List.filter_append, hinline, inlines_text,
      List.flatMap_cons, List.singleton_append, spansFrom, spansFrom, spansFrom, List.map_cons,
      List.map_append, inlinePlaces]
    change scanRegion none lead.byteSize
      (((utf8 (lead ++ t)).take (lead.byteSize + gap.byteSize)).drop lead.byteSize) ++ _ = _
    rw [hgap, scanRegion_utf8, List.filter_cons_of_neg (by simp [Span.isDisplay])]
    exact congrArg _ hrest

/-- Scanning the bytes of a text finds its display formulas and then its inline formulas. -/
theorem found_utf8 (t : Text) : found (utf8 t) = (foundOrder t).map Span.place := by
  have hdisplay : displayPlaces none 0 (utf8 t) =
      ((spans t).filter Span.isDisplay).map Span.place := by
    rw [displayPlaces_utf8 (by decide), spans, filter_isDisplay_spansFrom]
  have hinline : inlinePlaces (utf8 t) 0 (displayPlaces none 0 (utf8 t)) =
      ((spans t).filter fun s => !s.isDisplay).map Span.place := by
    rw [displayPlaces_utf8 (by decide)]
    exact inlinePlaces_utf8 [] t
  unfold found foundOrder
  dsimp only
  rw [hinline, hdisplay, ← List.map_append]

/-- The places in the bytes of a text are those of its formulas. -/
theorem places_utf8 (t : Text) : places (utf8 t) = (spans t).map Span.place := by
  rw [places, found_utf8]
  apply mergeSort_eq_of_perm Place.start
  · exact (foundOrder_perm t).map Span.place
  · exact List.pairwise_map.2 ((pairwise_spansFrom 0 _).imp fun h => h.1)

end Order

end ExamMarkup.Formula.Scan
