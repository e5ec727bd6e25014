import LexBase.Proofs.Scan.Range
import LexBase.Proofs.Text.Cut

/-!
# Texts of adjacent ranges

The texts of two adjacent ranges are put together to the text of both wherever no character goes on across
the cut. For that the two units beside the cut are enough to look at: in words a pair of surrogates, in
bytes the one after the cut. The buffer need not hold valid text.
-/

namespace LexBase

set_option autoImplicit false

/-- The cut at `j` stands between the two surrogates of a character. -/
def SplitsPair (us : Array (CodeUnit .word)) (i j k : Nat) : Prop :=
  i < j ∧ j < k ∧ ∃ u v, us[j - 1]? = some u ∧ us[j]? = some v ∧
    Utf16.isHigh u = true ∧ Utf16.isLow v = true

/-- No character of the range from `i` to `k` goes on across `j`, as far as the units beside it tell. -/
def CleanCut : {w : Width} → Array (CodeUnit w) → Nat → Nat → Nat → Prop
  | .byte, us, _, j, k => j = k ∨ ∃ b, us[j]? = some b ∧ ¬Utf8.IsContinuation b
  | .word, us, i, j, k => ¬SplitsPair us i j k

namespace BufferReader

variable {w : Width} {i j k : Nat}

theorem between_append {c : BufferReader w} (hij : i ≤ j) (hjk : j ≤ k) :
    c.between i k = c.between i j ++ c.between j k := by
  unfold between
  rw [← Array.toList_append, Array.extract_append_extract, Nat.min_eq_left hij, Nat.max_eq_right hjk]

theorem of_between_eq_cons {c : BufferReader w} {u : CodeUnit w} {rest : List (CodeUnit w)}
    (h : c.between j k = u :: rest) : j < k ∧ c.buffer[j]? = some u := by
  have hhead : (c.between j k)[0]? = some u := by
    rw [h]
    rfl
  unfold between at hhead
  rw [Array.getElem?_toList, Array.getElem?_extract] at hhead
  split at hhead
  · rename_i hlt
    exact ⟨by omega, hhead⟩
  · cases hhead

/-- Only the last unit before the cut can be held back, so a cut that splits no pair severs nothing. -/
theorem severed_word_iff {c : BufferReader .word} (hij : i ≤ j) :
    Severed (c.between i j) (c.between j k) ↔ SplitsPair c.buffer i j k := by
  constructor
  · rintro ⟨h, v, rest, hreached, hright, hlow⟩
    obtain ⟨hjk, hv⟩ := of_between_eq_cons hright
    rcases Nat.eq_or_lt_of_le hij with rfl | hlt
    · rw [between_self] at hreached
      cases hreached
    · have hlast : j - 1 + 1 = j := Nat.succ_pred_eq_of_pos (Nat.zero_lt_of_lt hlt)
      have hin : j - 1 < c.buffer.size := by
        have hj := (Array.getElem?_eq_some_iff.mp hv).1
        omega
      have hu : c.buffer[j - 1]? = some c.buffer[j - 1] := Array.getElem?_eq_getElem hin
      -- what came before the last unit is decided by now, so only a high surrogate can wait
      rw [← hlast, between_eq_concat hu (Nat.le_sub_one_of_lt hlt), Decoder.reached_concat] at hreached
      have hheld := (Utf16.step_snd _ _).symm.trans hreached
      split at hheld
      · rename_i hhigh
        exact ⟨hlt, hjk, _, v, hu, hv, hhigh, hlow⟩
      · cases hheld
  · rintro ⟨hlt, hjk, u, v, hu, hv, hhigh, hlow⟩
    have hlast : j - 1 + 1 = j := Nat.succ_pred_eq_of_pos (Nat.zero_lt_of_lt hlt)
    refine ⟨u, v, c.between (j + 1) k, ?_, between_eq_cons hv hjk, hlow⟩
    rw [← hlast, between_eq_concat hu (Nat.le_sub_one_of_lt hlt), Decoder.reached_concat]
    exact (Utf16.step_snd _ u).trans (if_pos hhigh)

theorem isContinuation_of_severed {c : BufferReader .byte}
    (h : Severed (c.between i j) (c.between j k)) :
    j < k ∧ ∃ b, c.buffer[j]? = some b ∧ Utf8.IsContinuation b := by
  obtain ⟨p, b, rest, hreached, hright, hfit⟩ := h
  obtain ⟨hjk, hb⟩ := of_between_eq_cons hright
  exact ⟨hjk, b, hb, hfit.isContinuation (Decoder.holds_reached hreached)⟩

theorem CleanCut.not_severed {c : BufferReader w} (hij : i ≤ j) (h : CleanCut c.buffer i j k) :
    ¬Severed (c.between i j) (c.between j k) := by
  cases w with
  | byte =>
    intro hsevered
    obtain ⟨hjk, b, hb, hcontinues⟩ := isContinuation_of_severed hsevered
    rcases h with hend | ⟨b', hb', hstarts⟩
    · exact Nat.ne_of_lt hjk hend
    · rw [Option.some.inj (hb'.symm.trans hb)] at hstarts
      exact hstarts hcontinues
  | word => exact fun hsevered => h ((severed_word_iff hij).mp hsevered)

structure Pieces (c : BufferReader w) (i j k : Nat) (left right whole : String) : Prop where
  forward : Reader.text c i j = .ok left ∧ Reader.text c j k = .ok right ∧
    Reader.text c i k = .ok whole
  backward : Reader.text (Backward.mk c) j i = .ok left ∧ Reader.text (Backward.mk c) k j = .ok right ∧
    Reader.text (Backward.mk c) k i = .ok whole
  joined_iff : whole = left ++ right ↔ ¬Severed (c.between i j) (c.between j k)
  joined : CleanCut c.buffer i j k → whole = left ++ right

theorem text_eq {c : BufferReader w} (hij : i ≤ j) (hj : j ≤ c.length) :
    Reader.text c i j = .ok (decodeText (c.between i j)) :=
  congrArg (Except.map decodeText) (units_eq_between hij hj)

theorem text_pieces (c : BufferReader w) (hij : i ≤ j) (hjk : j ≤ k) (hk : k ≤ c.length) :
    ∃ left right whole, c.Pieces i j k left right whole := by
  have hleft := text_eq hij (Nat.le_trans hjk hk)
  have hright := text_eq hjk hk
  have hwhole := text_eq (Nat.le_trans hij hjk) hk
  have hjoined := decodeText_append_iff (c.between i j) (c.between j k)
  rw [← between_append hij hjk] at hjoined
  exact ⟨_, _, _, ⟨hleft, hright, hwhole⟩, ⟨hleft, hright, hwhole⟩, hjoined,
    fun hclean => hjoined.mpr (CleanCut.not_severed hij hclean)⟩

/-- Two of the three bytes of a character, a letter, and the third byte. -/
def brokenCharacter : BufferReader .byte := ⟨#[0xe2, 0x82, 0x41, 0xac], 0, 0, false⟩

theorem brokenCharacter_pieces : 0 ≤ 2 ∧ 2 ≤ 4 ∧ 4 ≤ brokenCharacter.length ∧
    CleanCut brokenCharacter.buffer 0 2 4 ∧
    brokenCharacter.Pieces 0 2 4 "\uFFFD" "A\uFFFD" "\uFFFDA\uFFFD" := by
  refine ⟨by decide, by decide, by decide, .inr ⟨0x41, rfl, by unfold Utf8.IsContinuation; decide⟩, ?_⟩
  obtain ⟨left, right, whole, h⟩ :=
    text_pieces brokenCharacter (i := 0) (j := 2) (k := 4) (by decide) (by decide) (by decide)
  obtain ⟨hleft, hright, hwhole⟩ := h.forward
  obtain rfl : "\uFFFD" = left := Except.ok.inj hleft
  obtain rfl : "A\uFFFD" = right := Except.ok.inj hright
  obtain rfl : "\uFFFDA\uFFFD" = whole := Except.ok.inj hwhole
  exact h

end BufferReader

end LexBase
