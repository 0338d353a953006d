import Mathlib.Data.List.Basic
import Mathlib.Tactic.Common

/-!
# Words of a sequence

The words of a sequence are its maximal runs without separators.  Reading it
from the left as gap, word, gap, word and so on lists each of them once and in
order.
-/

namespace JOSKernel.General.Words

variable {α : Type} (sep : α → Prop)

/-- The `size` elements from `start` on are a maximal run without separators. -/
structure IsWord (text : List α) (start size : Nat) : Prop where
  nonempty : 0 < size
  inside : ∀ i, start ≤ i → i < start + size → ∃ a, text[i]? = some a ∧ ¬ sep a
  left : ∀ i a, i + 1 = start → text[i]? = some a → sep a
  right : ∀ a, text[start + size]? = some a → sep a

/-- The words of a text, each by its place and size, from left to right. -/
structure WordsOf (text : List α) (ws : List (Nat × Nat)) : Prop where
  sorted : (ws.map Prod.fst).Pairwise (· < ·)
  words : ∀ w, w ∈ ws ↔ IsWord sep text w.1 w.2

/-- A text read from the left, from offset `off` on. -/
inductive Split : Nat → List α → List (Nat × Nat) → Prop where
  | gap {off : Nat} {gap : List α} (hgap : ∀ a ∈ gap, sep a) : Split off gap []
  | word {off : Nat} {gap word rest : List α} {ws : List (Nat × Nat)} (hgap : ∀ a ∈ gap, sep a)
      (hne : word ≠ []) (hword : ∀ a ∈ word, ¬ sep a) (hrest : ∀ a ∈ rest.head?, sep a)
      (h : Split (off + gap.length + word.length) rest ws) :
      Split off (gap ++ (word ++ rest)) ((off + gap.length, word.length) :: ws)

variable {sep}

/-- A text splits in front of its first element that fails a test. -/
theorem span_split (p : α → Prop) (text : List α) :
    ∃ run rest, text = run ++ rest ∧ (∀ a ∈ run, p a) ∧ ∀ a ∈ rest.head?, ¬ p a := by
  induction text with
  | nil => exact ⟨[], [], rfl, fun a ha => (nomatch ha), fun a ha => nomatch ha⟩
  | cons first text ih =>
      by_cases hfirst : p first
      · obtain ⟨run, rest, rfl, hrun, hrest⟩ := ih
        exact ⟨first :: run, rest, rfl, List.forall_mem_cons.mpr ⟨hfirst, hrun⟩, hrest⟩
      · refine ⟨[], first :: text, rfl, fun a ha => (nomatch ha), ?_⟩
        intro a ha
        obtain rfl := Option.some.inj ha
        exact hfirst

theorem exists_split (sep : α → Prop) (off : Nat) (text : List α) :
    ∃ ws, Split sep off text ws := by
  induction hsize : text.length using Nat.strongRecOn generalizing off text with
  | ind size ih =>
      obtain ⟨gap, rest, rfl, hgap, hrest⟩ := span_split sep text
      cases rest with
      | nil => exact ⟨[], by rw [List.append_nil]; exact .gap hgap⟩
      | cons first rest =>
          have hfirst : ¬ sep first := hrest first rfl
          obtain ⟨run, rest', rfl, hrun, hrest'⟩ := span_split (fun a => ¬ sep a) rest
          have hshorter : rest'.length < size := by
            rw [← hsize]
            simp only [List.length_append, List.length_cons]
            omega
          obtain ⟨ws, hws⟩ := ih rest'.length hshorter (off + gap.length + (first :: run).length)
            rest' rfl
          refine ⟨_, .word hgap (List.cons_ne_nil first run) ?_ ?_ hws⟩
          · exact List.forall_mem_cons.mpr ⟨hfirst, hrun⟩
          · exact fun a ha => not_not.mp (hrest' a ha)

/-! ## The split lists the words -/

section Word

variable {gap word rest : List α}

theorem at_gap (hgap : ∀ a ∈ gap, sep a) {i : Nat} {a : α} (hi : i < gap.length)
    (ha : (gap ++ (word ++ rest))[i]? = some a) : sep a := by
  rw [List.getElem?_append_left hi] at ha
  exact hgap a (List.mem_of_getElem? ha)

theorem at_word (hword : ∀ a ∈ word, ¬ sep a) {i : Nat} (hlow : gap.length ≤ i)
    (hhigh : i < gap.length + word.length) :
    ∃ a, (gap ++ (word ++ rest))[i]? = some a ∧ ¬ sep a := by
  have hi : i - gap.length < word.length := by omega
  refine ⟨word[i - gap.length], ?_, hword _ (List.getElem_mem hi)⟩
  rw [List.getElem?_append_right hlow, List.getElem?_append_left hi, List.getElem?_eq_getElem hi]

theorem at_rest {i : Nat} (hlow : gap.length + word.length ≤ i) :
    (gap ++ (word ++ rest))[i]? = rest[i - (gap.length + word.length)]? := by
  rw [List.getElem?_append_right (by omega), List.getElem?_append_right (by omega), Nat.sub_sub]

theorem behind_word (hrest : ∀ a ∈ rest.head?, sep a) {a : α}
    (ha : (gap ++ (word ++ rest))[gap.length + word.length]? = some a) : sep a := by
  rw [at_rest (Nat.le_refl _), Nat.sub_self, ← List.head?_eq_getElem?] at ha
  exact hrest a ha

/-- The element at a place is not both a separator and none. -/
theorem not_sep_of {text : List α} {i : Nat} (h : ∃ a, text[i]? = some a ∧ ¬ sep a)
    (hsep : ∀ a, text[i]? = some a → sep a) : False := by
  obtain ⟨a, ha, hnot⟩ := h
  exact hnot (hsep a ha)

variable (hgap : ∀ a ∈ gap, sep a) (hne : word ≠ []) (hword : ∀ a ∈ word, ¬ sep a)
  (hrest : ∀ a ∈ rest.head?, sep a)

include hgap hword hrest in
/-- A word of the whole is the first one or a word of the rest. -/
theorem isWord_cases {start size : Nat} (h : IsWord sep (gap ++ (word ++ rest)) start size) :
    start = gap.length ∧ size = word.length ∨
      gap.length + word.length ≤ start ∧
        IsWord sep rest (start - (gap.length + word.length)) size := by
  have hfirst := h.inside start (Nat.le_refl _) (Nat.lt_add_of_pos_right h.nonempty)
  have hstart : gap.length ≤ start := by
    by_contra hlt
    exact not_sep_of hfirst fun a ha => at_gap hgap (by omega) ha
  rcases Nat.lt_or_ge start (gap.length + word.length) with hin | hout
  · left
    have hplace : start = gap.length := by
      by_contra hlate
      have hbefore : ∃ a, (gap ++ (word ++ rest))[start - 1]? = some a ∧ ¬ sep a :=
        at_word hword (by omega) (by omega)
      exact not_sep_of hbefore fun a ha => h.left (start - 1) a (by omega) ha
    refine ⟨hplace, ?_⟩
    rcases Nat.lt_trichotomy size word.length with hshort | hsame | hlong
    · have hbehind : ∃ a, (gap ++ (word ++ rest))[start + size]? = some a ∧ ¬ sep a :=
        at_word hword (by omega) (by omega)
      exact (not_sep_of hbehind h.right).elim
    · exact hsame
    · refine (not_sep_of (h.inside (gap.length + word.length) (by omega) (by omega)) ?_).elim
      exact fun a ha => behind_word hrest ha
  · right
    refine ⟨hout, h.nonempty, ?_, ?_, ?_⟩
    · intro i hlow hhigh
      have hinside := h.inside (i + (gap.length + word.length)) (by omega) (by omega)
      rw [at_rest (by omega), Nat.add_sub_cancel] at hinside
      exact hinside
    · intro i a hi ha
      apply h.left (i + (gap.length + word.length)) a (by omega)
      rw [at_rest (by omega), Nat.add_sub_cancel]
      exact ha
    · intro a ha
      have hplace : start + size - (gap.length + word.length) =
          start - (gap.length + word.length) + size := by omega
      apply h.right
      rw [at_rest (by omega), hplace]
      exact ha

include hgap hne hword hrest in
theorem isWord_first : IsWord sep (gap ++ (word ++ rest)) gap.length word.length where
  nonempty := List.length_pos_of_ne_nil hne
  inside _ hlow hhigh := at_word hword hlow hhigh
  left _ _ hi ha := at_gap hgap (by omega) ha
  right _ ha := behind_word hrest ha

include hrest in
theorem isWord_later {start size : Nat} (h : IsWord sep rest start size) :
    IsWord sep (gap ++ (word ++ rest)) (start + (gap.length + word.length)) size where
  nonempty := h.nonempty
  inside i hlow hhigh := by
    rw [at_rest (by omega)]
    exact h.inside _ (by omega) (by omega)
  left i a hi ha := by
    have hpos : start ≠ 0 := by
      rintro rfl
      refine not_sep_of (h.inside 0 (Nat.le_refl _) (Nat.lt_add_of_pos_right h.nonempty)) ?_
      intro b hb
      rw [← List.head?_eq_getElem?] at hb
      exact hrest b hb
    rw [at_rest (by omega)] at ha
    exact h.left _ a (by omega) ha
  right a ha := by
    rw [at_rest (by omega)] at ha
    apply h.right a
    rw [← ha]
    congr 1
    omega

end Word

/-- The split lists every word once, from left to right. -/
theorem Split.words {off : Nat} {text : List α} {ws : List (Nat × Nat)} (h : Split sep off text ws) :
    (ws.map Prod.fst).Pairwise (· < ·) ∧
      ∀ start size, (start, size) ∈ ws ↔ off ≤ start ∧ IsWord sep text (start - off) size := by
  induction h with
  | gap hgap =>
      refine ⟨List.Pairwise.nil, fun start size => ⟨fun h => (nomatch h), ?_⟩⟩
      rintro ⟨_, hword⟩
      refine (not_sep_of (hword.inside _ (Nat.le_refl _) (Nat.lt_add_of_pos_right hword.nonempty))
        ?_).elim
      exact fun a ha => hgap a (List.mem_of_getElem? ha)
  | @word off gap word rest ws hgap hne hword hrest _ ih =>
      obtain ⟨hsorted, hwords⟩ := ih
      constructor
      · rw [List.map_cons, List.pairwise_cons]
        refine ⟨?_, hsorted⟩
        intro start hstart
        obtain ⟨⟨start, size⟩, hmem, rfl⟩ := List.mem_map.mp hstart
        have hafter := ((hwords start size).mp hmem).1
        have hpos := List.length_pos_of_ne_nil hne
        dsimp only
        omega
      · intro start size
        rw [List.mem_cons, Prod.mk.injEq, hwords]
        constructor
        · rintro (⟨rfl, rfl⟩ | ⟨hafter, hin⟩)
          · rw [Nat.add_sub_cancel_left]
            exact ⟨Nat.le_add_right _ _, isWord_first hgap hne hword hrest⟩
          · refine ⟨by omega, ?_⟩
            have hlater := @isWord_later _ _ gap word _ hrest _ _ hin
            have hplace : start - (off + gap.length + word.length) + (gap.length + word.length) =
                start - off := by omega
            rw [hplace] at hlater
            exact hlater
        · rintro ⟨hafter, hin⟩
          rcases isWord_cases hgap hword hrest hin with ⟨hstart, hsize⟩ | ⟨hlate, hin⟩
          · exact .inl ⟨by omega, hsize⟩
          · refine .inr ⟨by omega, ?_⟩
            have hplace : start - (off + gap.length + word.length) =
                start - off - (gap.length + word.length) := by omega
            rw [hplace]
            exact hin

/-- The split of a whole text. -/
theorem Split.wordsOf {text : List α} {ws : List (Nat × Nat)} (h : Split sep 0 text ws) :
    WordsOf sep text ws := by
  obtain ⟨hsorted, hwords⟩ := h.words
  refine ⟨hsorted, fun w => ?_⟩
  rw [hwords w.1 w.2, Nat.sub_zero]
  exact and_iff_right (Nat.zero_le _)

/-! ## The words as sequences -/

section Sequences

variable {sep : α → Prop} [DecidablePred sep]

/-- The pieces between separators that are not empty. -/
def words (sep : α → Prop) [DecidablePred sep] (text : List α) : List (List α) :=
  (text.splitOnP fun a => decide (sep a)).filter fun word => !word.isEmpty

theorem words_sep {a : α} (ha : sep a) (text : List α) : words sep (a :: text) = words sep text := by
  have hfirst : ((a :: text).splitOnP fun a => decide (sep a)) =
      [] :: text.splitOnP fun a => decide (sep a) := by
    rw [List.splitOnP_cons_eq_if_modifyHead, decide_eq_true ha, if_pos rfl]
  rw [words, hfirst]
  rfl

theorem words_gap {gap : List α} (hgap : ∀ a ∈ gap, sep a) (rest : List α) :
    words sep (gap ++ rest) = words sep rest := by
  induction gap with
  | nil => rfl
  | cons a gap ih =>
      rw [List.cons_append, words_sep (hgap a List.mem_cons_self)]
      exact ih fun b hb => hgap b (List.mem_cons_of_mem _ hb)

theorem words_word {word rest : List α} (hne : word ≠ []) (hword : ∀ a ∈ word, ¬ sep a)
    (hrest : ∀ a ∈ rest.head?, sep a) : words sep (word ++ rest) = word :: words sep rest := by
  have hplain : ∀ a ∈ word, decide (sep a) = false := fun a ha => decide_eq_false (hword a ha)
  have hkept : (!word.isEmpty) = true := by
    rw [Bool.not_eq_true', List.isEmpty_eq_false_iff]
    exact hne
  cases rest with
  | nil =>
      rw [List.append_nil, words, List.splitOnP_eq_singleton hplain, List.filter_cons, if_pos hkept]
      rfl
  | cons a rest =>
      have ha : sep a := hrest a rfl
      rw [words_sep ha, words,
        List.splitOnP_append_cons_of_forall_mem hplain a (decide_eq_true ha),
        List.filter_cons, if_pos hkept]
      rfl

/-- The places of the split hold the words. -/
theorem Split.words_eq {off : Nat} {text : List α} {ws : List (Nat × Nat)}
    (h : Split sep off text ws) (front : List α) (hfront : front.length = off) :
    ws.map (fun w => ((front ++ text).drop w.1).take w.2) = Words.words sep text := by
  induction h generalizing front with
  | @gap off gap hgap =>
      have hnone := words_gap hgap []
      rw [List.append_nil] at hnone
      rw [hnone]
      rfl
  | @word off gap word rest ws hgap hne hword hrest _ ih =>
      have hbehind : (front ++ gap ++ word).length = off + gap.length + word.length := by
        rw [List.length_append, List.length_append, hfront]
      have hplace : (front ++ gap).length = off + gap.length := by rw [List.length_append, hfront]
      have hothers := ih _ hbehind
      have hwhole : front ++ gap ++ word ++ rest = front ++ (gap ++ (word ++ rest)) := by
        simp only [List.append_assoc]
      have hfirst : ((front ++ (gap ++ (word ++ rest))).drop (off + gap.length)).take word.length =
          word := by
        rw [← List.append_assoc, ← hplace, List.drop_left, List.take_left]
      rw [words_gap hgap, words_word hne hword hrest, List.map_cons, hfirst, ← hothers, hwhole]

end Sequences

end JOSKernel.General.Words
