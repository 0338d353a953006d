import JOSKernel.Lib.FormatWalk
import JOSKernel.Lib.Readline

/-!
# The erase keys of the line editor

A line is the fold of its keys: an accepted character is appended, an erase key
drops the last one.  `readline` follows the fold as long as no DEL comes while
the line is empty; there the erase branch is not taken and the key falls
through to the branch that inserts.
-/

namespace JOSKernel.Lib.LineErase

open JOSKernel.General.MachineInt
open JOSKernel.Kern.ConsoleOutput
open JOSKernel.Kern.Printf
open JOSKernel.Lib.Printfmt
open JOSKernel.Lib.Readline
open JOSKernel.Lib.StringRoutines

abbrev IsErase (c : Word) : Prop := c = 0x08 ∨ c = 0x7F

abbrev IsReturn (c : Word) : Prop := c = 0x0A ∨ c = 0x0D

/-- What a key is for. -/
def editKey (line : List Byte) (c : Word) : List Byte :=
  if IsErase c then line.dropLast
  else if c.toInt ≥ 0x20 ∧ line.length < BUFLEN - 1 then line ++ [c.setWidth 8]
  else line

def edited (keys : List Word) : List Byte := keys.foldl editKey []

/-! ## The fold -/

theorem edited_concat (keys : List Word) (c : Word) :
    edited (keys ++ [c]) = editKey (edited keys) c := by
  rw [edited, List.foldl_append, List.foldl_cons, List.foldl_nil, edited]

/-- Neither erase key is a character of the line. -/
def EraseFree (line : List Byte) : Prop := ∀ b ∈ line, b ≠ 0x08 ∧ b ≠ 0x7F

theorem editKey_eraseFree {line : List Byte} (hline : EraseFree line) {c : Word}
    (hc : c.toNat ≤ 255) : EraseFree (editKey line c) := by
  unfold editKey
  split
  · intro b hb
    exact hline b (List.mem_of_mem_dropLast hb)
  · rename_i herase
    split
    · rename_i hinsert
      intro b hb
      rcases List.mem_append.mp hb with hb | hb
      · exact hline b hb
      · obtain rfl := List.mem_singleton.mp hb
        have hvalue : (c.setWidth 8).toNat = c.toNat := by
          rw [BitVec.toNat_setWidth]
          exact Nat.mod_eq_of_lt (Nat.lt_succ_of_le hc)
        constructor
        · intro hback
          rw [hback] at hvalue
          exact herase (.inl (BitVec.eq_of_toNat_eq hvalue.symm))
        · intro hdel
          rw [hdel] at hvalue
          exact herase (.inr (BitVec.eq_of_toNat_eq hvalue.symm))
    · exact hline

theorem foldl_eraseFree (keys : List Word) (hkeys : ∀ c ∈ keys, c.toNat ≤ 255)
    {line : List Byte} (hline : EraseFree line) : EraseFree (keys.foldl editKey line) := by
  induction keys generalizing line with
  | nil => exact hline
  | cons c keys ih =>
      exact ih (fun c hc => hkeys c (List.mem_cons_of_mem _ hc))
        (editKey_eraseFree hline (hkeys c List.mem_cons_self))

/-! ## One key -/

theorem line_eq_nil_iff (e : Editor) : e.line = [] ↔ e.i = 0 := by
  rw [← e.line_length, List.length_eq_zero_iff]

/-- A key that does not end the line edits it, unless it is a DEL on an empty line. -/
theorem readKey_edits {c : Word} (hc : c.toNat ≤ 255) (hreturn : ¬ IsReturn c) {e : Editor}
    (hempty : c = 0x7F → e.line ≠ []) :
    ∃ e', readKey c e = some (e', none) ∧ e'.line = editKey e.line c := by
  have hint : c.toInt = c.toNat := BitVec.toInt_eq_toNat_of_lt (by simp only [Nat.reducePow]; omega)
  rw [readKey, if_neg (by omega), editKey]
  by_cases herase : IsErase c
  · rw [if_pos herase]
    by_cases hi : e.i > 0
    · refine ⟨_, if_pos ⟨herase, hi⟩, ?_⟩
      rw [line_erase hi, List.dropLast_concat]
      rfl
    · have hline : e.line = [] := (line_eq_nil_iff e).mpr (by omega)
      have hback : c = 0x08 := herase.resolve_right fun hdel => hempty hdel hline
      refine ⟨e, ?_, by rw [hline]; rfl⟩
      rw [if_neg fun h => hi h.2, if_neg, if_neg hreturn]
      rw [hback]
      exact fun h => absurd h.1 (by decide)
  · rw [if_neg fun h => herase h.1, if_neg herase, e.line_length]
    by_cases hinsert : c.toInt ≥ 0x20 ∧ e.i < BUFLEN - 1
    · rw [if_pos hinsert, if_pos hinsert]
      exact ⟨_, rfl, line_insert e _ _⟩
    · rw [if_neg hinsert, if_neg hinsert, if_neg hreturn]
      exact ⟨e, rfl, rfl⟩

/-- An erased empty line: BS does nothing at all. -/
theorem readKey_backspace_empty {e : Editor} (hline : e.line = []) :
    readKey 0x08 e = some (e, none) := by
  have hi : ¬ e.i > 0 := by
    rw [(line_eq_nil_iff e).mp hline]
    exact Nat.lt_irrefl 0
  rw [readKey, if_neg (by decide), if_neg fun h => hi h.2, if_neg fun h => absurd h.1 (by decide),
    if_neg (by decide)]

/-- DEL is inserted there. -/
theorem readKey_delete_empty {e : Editor} (hline : e.line = []) :
    ∃ e', readKey 0x7F e = some (e', none) ∧ e'.i = 1 := by
  have hi : e.i = 0 := (line_eq_nil_iff e).mp hline
  refine ⟨⟨echo 0x7F e.console, store e.buf e.i 0x7F, e.i + 1⟩, ?_, by rw [hi]⟩
  rw [readKey, if_neg (by decide), if_neg, if_pos]
  · rfl
  · rw [hi]
    decide
  · rw [hi]
    exact fun h => Nat.lt_irrefl 0 h.2

/-! ## A whole line -/

/-- Keys that leave the line open are followed by the rest of the keys. -/
theorem readKeys_append {before : List Word} {e e' : Editor}
    (hbefore : readKeys before e = some (e', none)) (after : List Word) :
    readKeys (before ++ after) e = readKeys after e' := by
  induction before generalizing e with
  | nil =>
      obtain rfl : e = e' := congrArg Prod.fst (Option.some.inj hbefore)
      rfl
  | cons c before ih =>
      rw [readKeys] at hbefore
      obtain ⟨⟨e₁, result⟩, hkey, hrest⟩ := Option.bind_eq_some_iff.mp hbefore
      cases result with
      | none => exact (readKeys_more hkey (before ++ after)).trans (ih hrest)
      | some result => cases hrest

/-- No DEL comes while the line is empty. -/
def NoEmptyDelete (keys : List Word) : Prop :=
  ∀ before after, keys = before ++ 0x7F :: after → edited before ≠ []

theorem NoEmptyDelete.of_append {before after : List Word} (h : NoEmptyDelete (before ++ after)) :
    NoEmptyDelete before := by
  rintro first rest rfl
  exact h first (rest ++ after) (by rw [List.append_assoc, List.cons_append])

/-- Such keys make the line that they fold to. -/
theorem readKeys_edited {keys : List Word} (hkeys : ∀ c ∈ keys, c.toNat ≤ 255 ∧ ¬ IsReturn c)
    (hdelete : NoEmptyDelete keys) {e : Editor} (hline : e.line = []) :
    ∃ e', readKeys keys e = some (e', none) ∧ e'.line = edited keys := by
  induction keys using List.reverseRecOn with
  | nil => exact ⟨e, rfl, hline⟩
  | append_singleton keys c ih =>
      have hc := hkeys c (by simp)
      obtain ⟨e₁, hrun, hline₁⟩ :=
        ih (fun d hd => hkeys d (List.mem_append_left _ hd)) hdelete.of_append
      obtain ⟨e₂, hkey, hline₂⟩ := readKey_edits hc.1 hc.2 (e := e₁) (by
        rintro rfl
        rw [hline₁]
        exact hdelete keys [] rfl)
      refine ⟨e₂, ?_, ?_⟩
      · rw [readKeys_append hrun, readKeys_more hkey, readKeys]
      · rw [hline₂, hline₁, edited_concat]

/-- The key that ends the line. -/
theorem readKey_end {c : Word} (hc : IsReturn c) (e : Editor) :
    ∃ e', readKey c e = some (e', some .buf) ∧ e'.line = e.line ∧ e'.buf e'.i = 0 := by
  refine ⟨{ e with console := echo 0x0A e.console, buf := store e.buf e.i 0 }, ?_,
    line_store _ _ _, if_pos rfl⟩
  rcases hc with rfl | rfl
  · rw [readKey, if_neg (by decide), if_neg fun h => absurd h.1 (by decide),
      if_neg fun h => absurd h.1 (by decide), if_pos (.inl rfl)]
  · rw [readKey, if_neg (by decide), if_neg fun h => absurd h.1 (by decide),
      if_neg fun h => absurd h.1 (by decide), if_pos (.inr rfl)]

/-! ## The prompt -/

/-- A prompt with a NUL is printed, whatever its characters. -/
theorem prompt_printed (p : Word) {prompt : List Byte} (hnul : 0 ∈ prompt) (st : Console) :
    ∃ r, cprintf (cstr (bytes "%s")) [.ptr p prompt] st = some r :=
  cprintf_returns (show 0 ∉ bytes "%s" by decide) (takeArgs_string p hnul [] []) st

theorem readline_starts {p : Word} {prompt : List Byte} (hprompt : p ≠ 0 → 0 ∈ prompt)
    (st : Console) (buf : Nat → Byte) :
    ∃ e, e.line = [] ∧ ∀ keys, readline p prompt keys st buf = readKeys keys e := by
  by_cases hp : p = 0
  · refine ⟨⟨st, buf, 0⟩, rfl, fun keys => ?_⟩
    rw [readline, if_neg (not_not.mpr hp)]
    rfl
  · obtain ⟨r, hr⟩ := prompt_printed p (hprompt hp) st
    refine ⟨⟨r.2, buf, 0⟩, rfl, fun keys => ?_⟩
    rw [readline, if_pos hp, hr]
    rfl

/-! ## Erasure only -/

/-- A call on the keys `keys`, the key `c` that ends the line, and the ones
behind it: the line is the fold of the keys and has no erase character, and an
erase key on an empty line leaves buffer and console as they are. -/
structure ErasesOnly (p : Word) (prompt : List Byte) (st : Console) (buf : Nat → Byte)
    (keys : List Word) (c : Word) (rest : List Word) : Prop where
  returned : ∃ e, readline p prompt (keys ++ c :: rest) st buf = some (e, some .buf) ∧
    e.line = edited keys ∧ e.buf e.i = 0 ∧ EraseFree e.line
  empty : ∀ before key after e, keys = before ++ key :: after → IsErase key →
    readline p prompt before st buf = some (e, none) → e.line = [] →
      readline p prompt (before ++ [key]) st buf = some (e, none)

/-- The erase keys act only as erasure exactly on those lines where no DEL
comes while the line is empty. -/
theorem erasesOnly_iff {p : Word} {prompt : List Byte} (hprompt : p ≠ 0 → 0 ∈ prompt)
    (st : Console) (buf : Nat → Byte) {keys : List Word}
    (hkeys : ∀ key ∈ keys, key.toNat ≤ 255 ∧ ¬ IsReturn key) {c : Word} (hc : IsReturn c)
    (rest : List Word) :
    ErasesOnly p prompt st buf keys c rest ↔ NoEmptyDelete keys := by
  obtain ⟨start, hstart, hread⟩ := readline_starts hprompt st buf
  constructor
  · intro h before
    -- The first DEL on an empty line is the one that the call gets wrong.
    induction hlength : before.length using Nat.strongRecOn generalizing before with
    | ind n ih =>
        rintro after hsplit hnone
        have hfirst : NoEmptyDelete before := by
          rintro first between rfl
          refine ih first.length ?_ first rfl (between ++ 0x7F :: after) ?_
          · rw [← hlength, List.length_append, List.length_cons]
            omega
          · rw [hsplit, List.append_assoc, List.cons_append]
        obtain ⟨e, hrun, hline⟩ :=
          readKeys_edited (fun key hkey => hkeys key (hsplit ▸ List.mem_append_left _ hkey)) hfirst
            hstart
        rw [hnone] at hline
        obtain ⟨e', hkey, hi⟩ := readKey_delete_empty hline
        have hkept := h.empty before 0x7F after e hsplit (.inr rfl) ((hread before).trans hrun) hline
        rw [hread, readKeys_append hrun, readKeys_more hkey, readKeys, Option.some.injEq,
          Prod.mk.injEq] at hkept
        rw [hkept.1, (line_eq_nil_iff e).mp hline] at hi
        exact absurd hi (by decide)
  · intro h
    constructor
    · obtain ⟨e, hrun, hline⟩ := readKeys_edited hkeys h hstart
      obtain ⟨e', hend, hsame, hnul⟩ := readKey_end hc e
      refine ⟨e', ?_, hsame.trans hline, hnul, ?_⟩
      · rw [hread, readKeys_append hrun, readKeys_return hend]
      · rw [hsame, hline]
        exact foldl_eraseFree keys (fun key hkey => (hkeys key hkey).1)
          fun b hb => absurd hb List.not_mem_nil
    · rintro before key after e hsplit herase hrun hline
      have hbefore : NoEmptyDelete before := by
        rw [hsplit] at h
        exact h.of_append
      obtain ⟨e₁, hrun₁, hline₁⟩ :=
        readKeys_edited (fun key hkey => hkeys key (hsplit ▸ List.mem_append_left _ hkey)) hbefore
          hstart
      rw [hread, hrun₁] at hrun
      obtain rfl : e₁ = e := congrArg Prod.fst (Option.some.inj hrun)
      rcases herase with rfl | rfl
      · rw [hread, readKeys_append hrun₁, readKeys_more (readKey_backspace_empty hline), readKeys]
      · exact absurd (hline₁.symm.trans hline) (h before after hsplit)

/-- Two characters, a DEL and a BS that erase them, and one BS more. -/
theorem erasesOnly_iff_slips :
    ErasesOnly 0 [] idle (fun _ => 0) [0x6C, 0x73, 0x7F, 0x08, 0x08] 0x0A [] ↔
      NoEmptyDelete [0x6C, 0x73, 0x7F, 0x08, 0x08] :=
  erasesOnly_iff (fun h => absurd rfl h) idle (fun _ => 0) (by simp) (.inl rfl) []

/-- The key DEL on an empty line becomes its first character. -/
theorem delete_inserted : ¬ ErasesOnly 0 [] idle (fun _ => 0) [0x7F] 0x0A [] := by
  intro h
  have hprompt : (0 : Word) ≠ 0 → (0 : Byte) ∈ ([] : List Byte) := fun h => absurd rfl h
  obtain ⟨start, hstart, hread⟩ := readline_starts hprompt idle fun _ => 0
  have hkept := h.empty [] 0x7F [] start rfl (.inr rfl) (hread []) hstart
  obtain ⟨e, hkey, hi⟩ := readKey_delete_empty hstart
  rw [List.nil_append, hread, readKeys_more hkey, readKeys, Option.some.injEq, Prod.mk.injEq]
    at hkept
  rw [hkept.1, (line_eq_nil_iff start).mp hstart] at hi
  exact absurd hi (by decide)

end JOSKernel.Lib.LineErase
