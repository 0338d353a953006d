import JOSKernel.Kern.StabBinsearch

/-!
# Where the search runs past its region

An exact match goes on with the address one above.  An entry at that address is
matched as well, and an address that wraps around to zero lets the search sink
below its match.  This decides for every ordered table when `stab_binsearch`
brackets the address, and when it tells a miss.
-/

namespace JOSKernel.Kern.StabOverrun

open JOSKernel.General.MachineInt
open JOSKernel.General.SparseSearch
open JOSKernel.Kern.StabBinsearch

/-! ## On the way to a match -/

theorem next_toNat {addr : Word} (h : addr.toNat + 1 < 4294967296) :
    (addr + 1).toNat = addr.toNat + 1 := by
  rw [BitVec.toNat_add]
  exact Nat.mod_eq_of_lt h

theorem next_zero {addr : Word} (h : addr.toNat + 1 = 4294967296) : (addr + 1).toNat = 0 := by
  rw [BitVec.toNat_add]
  simp [h]

/-- The search has just matched at `m` and goes on with `addr`. -/
structure Matched (m r' : Int) (addr : Word) (s : Search) : Prop where
  any : s.anyMatches = true
  left : s.left = m
  l : s.l = m
  r : s.r = r'
  right : s.right = r'
  addr : s.addr = addr

/-- The search is still to match `addr` at `m`, or `J` holds behind the match. -/
def Pending (keys : Keys Nat) (addr : Word) (m r' : Int) (J : Search → Prop) (s : Search) : Prop :=
  (s.addr = addr ∧ s.right = s.r ∧ Meets keys addr.toNat s.l s.r m r') ∨ J s

/-- A halving goes on towards the match, or makes it. -/
theorem step_pending {keys : Keys Nat} {s s' : Search} {m r' : Int} (hright : s.right = s.r)
    (hmeets : Meets keys s.addr.toNat s.l s.r m r') (hstep : Step keys s s') :
    (s'.addr = s.addr ∧ s'.right = s'.r ∧ Meets keys s.addr.toNat s'.l s'.r m r') ∨
      Matched m r' (s.addr + 1) s' := by
  cases hstep with
  | skip hnone =>
      cases hmeets with
      | skip hopen _ hrest => exact .inl ⟨rfl, hright, hrest⟩
      | raise hopen hlast _ hrest => exact absurd hnone hlast.not_none
      | lower hopen hlast _ hrest => exact absurd hnone hlast.not_none
      | here hopen hlast => exact absurd hnone hlast.not_none
  | raise hlast hlt =>
      cases hmeets with
      | skip hopen hnone hrest => exact absurd hnone hlast.not_none
      | raise hopen _ _ hrest => exact .inl ⟨rfl, hright, hrest⟩
      | lower hopen hlast' hlt' hrest =>
          have hv := (hlast.unique hlast').2
          omega
      | here hopen hlast' =>
          have hv := (hlast.unique hlast').2
          omega
  | lower hlast hlt =>
      cases hmeets with
      | skip hopen hnone hrest => exact absurd hnone hlast.not_none
      | raise hopen hlast' hlt' hrest =>
          have hv := (hlast.unique hlast').2
          omega
      | lower hopen hlast' hlt' hrest =>
          obtain ⟨rfl, _⟩ := hlast.unique hlast'
          exact .inl ⟨rfl, rfl, hrest⟩
      | here hopen hlast' =>
          have hv := (hlast.unique hlast').2
          omega
  | exact hlast =>
      cases hmeets with
      | skip hopen hnone hrest => exact absurd hnone hlast.not_none
      | raise hopen hlast' hlt' hrest =>
          have hv := (hlast.unique hlast').2
          omega
      | lower hopen hlast' hlt' hrest =>
          have hv := (hlast.unique hlast').2
          omega
      | here hopen hlast' =>
          obtain ⟨rfl, _⟩ := hlast.unique hlast'
          exact .inr ⟨rfl, rfl, rfl, rfl, hright, rfl⟩

theorem Pending.step {keys : Keys Nat} {addr : Word} {m r' : Int} {J : Search → Prop}
    (hmatch : ∀ s, Matched m r' (addr + 1) s → J s)
    (hJ : ∀ s s', J s → s.l ≤ s.r → Step keys s s' → J s') {s s' : Search}
    (h : Pending keys addr m r' J s) (hopen : s.l ≤ s.r) (hstep : Step keys s s') :
    Pending keys addr m r' J s' := by
  rcases h with ⟨rfl, hright, hmeets⟩ | h
  · rcases step_pending hright hmeets hstep with hgoes | hmatched
    · exact .inl hgoes
    · exact .inr (hmatch s' hmatched)
  · exact .inr (hJ s s' h hopen hstep)

/-- A closed window has made the match. -/
theorem Pending.closed {keys : Keys Nat} {addr : Word} {m r' : Int} {J : Search → Prop} {s : Search}
    (h : Pending keys addr m r' J s) (hclosed : s.r < s.l) : J s := by
  rcases h with ⟨_, _, hmeets⟩ | h
  · have hm := hmeets.keyed
    omega
  · exact h

theorem Matched.pending {keys : Keys Nat} {addr : Word} {m r' m₂ r₂ : Int} {J : Search → Prop}
    {s : Search} (h : Matched m r' addr s) (hmeets : Meets keys addr.toNat m r' m₂ r₂) :
    Pending keys addr m₂ r₂ J s := by
  refine .inl ⟨h.addr, h.right.trans h.r.symm, ?_⟩
  rw [h.l, h.r]
  exact hmeets

/-- A search that matches ends in what holds behind the match. -/
theorem searchLoop_pending {stabs : List Stab} {type : Byte} {lo hi m r' : Int} {addr : Word}
    {J : Search → Prop} (hlo : 0 ≤ lo) (hhi : hi < stabs.length)
    (hmeets : Meets (keysOf stabs type) addr.toNat lo hi m r')
    (hmatch : ∀ s, Matched m r' (addr + 1) s → J s)
    (hJ : ∀ s s', J s → s.l ≤ s.r → Step (keysOf stabs type) s s' → J s') :
    ∃ s, searchLoop stabs type (2 * (hi + 1 - lo).toNat + 2) ⟨lo, hi, lo, hi, false, addr⟩ =
      some s ∧ J s ∧ s.r < s.l := by
  have hstart : Pending (keysOf stabs type) addr m r' J ⟨lo, hi, lo, hi, false, addr⟩ :=
    .inl ⟨rfl, rfl, hmeets⟩
  obtain ⟨s, hrun, hs, hclosed⟩ := searchLoop_run (fun _ _ => Pending.step hmatch hJ) hstart hlo hhi
    (measure_start _ _ _ _)
  exact ⟨s, hrun, hs.closed hclosed, hclosed⟩

/-! ## Sinking -/

/-- The search for `k` has met nothing that is not above `k`, and goes down to
its lower end. -/
structure Sinking (keys : Keys Nat) (k : Nat) (lo : Int) (s : Search) : Prop where
  left : s.left = lo
  l : s.l = lo
  right_eq : s.right = s.r
  addr : s.addr.toNat = k
  sinks : Sinks keys k lo s.r ∨ (s.anyMatches = true ∧ s.r = lo - 1)

theorem Sinking.step {keys : Keys Nat} {k : Nat} {lo : Int} {s s' : Search}
    (h : Sinking keys k lo s) (hopen : s.l ≤ s.r) (hstep : Step keys s s') :
    Sinking keys k lo s' := by
  have hl := h.l
  have haddr := h.addr
  have hsinks : Sinks keys k s.l s.r := by
    rcases h.sinks with hsinks | ⟨_, hr⟩
    · exact hl ▸ hsinks
    · omega
  have hmet : ∃ m v, LastIn keys s.l ((s.l + s.r) / 2) m v ∧ k < v ∧
      (m = s.l ∨ Sinks keys k s.l (m - 1)) := by
    cases hsinks with
    | bottom _ hlast hlt => exact ⟨_, _, hlast, hlt, .inl rfl⟩
    | lower _ hlast hlt hrest => exact ⟨_, _, hlast, hlt, .inr hrest⟩
  obtain ⟨m, v, hlast, hlt, hrest⟩ := hmet
  cases hstep with
  | skip hnone => exact absurd hnone hlast.not_none
  | raise hlast' hlt' =>
      have hv := (hlast.unique hlast').2
      omega
  | lower hlast' hlt' =>
      obtain ⟨rfl, _⟩ := hlast.unique hlast'
      refine ⟨h.left, hl, rfl, haddr, ?_⟩
      rcases hrest with hbottom | hrest
      · exact .inr ⟨rfl, by simp only; omega⟩
      · exact .inl (hl ▸ hrest)
  | exact hlast' =>
      have hv := (hlast.unique hlast').2
      omega

/-- A search that has sunk gives the place before its lower end. -/
theorem Sinking.result {keys : Keys Nat} {k : Nat} {stabs : List Stab} {type : Byte}
    {lo hi m : Int} {addr : Word} {s : Search} (hm : 0 ≤ m) (hlen : m ≤ stabs.length)
    (hrun : searchLoop stabs type (2 * (hi + 1 - lo).toNat + 2) ⟨lo, hi, lo, hi, false, addr⟩ =
      some s) (h : Sinking keys k m s) (hclosed : s.r < s.l) :
    stabBinsearch stabs lo hi type addr = some (m - 1, m - 1) := by
  have hl := h.l
  have hsunk : s.anyMatches = true ∧ s.r = m - 1 := by
    rcases h.sinks with hsinks | hsunk
    · have hopen := hsinks.keyed.1
      omega
    · exact hsunk
  have hright := h.right_eq
  have hleft := h.left
  obtain ⟨a, hfound, ha, hplace⟩ := stabBinsearch_matched hrun hsunk.1 (by omega) (by omega)
  rw [hfound]
  congr 2 <;> omega

/-- Searching `[lo, r]` for `k` ends below `lo`. -/
def Sunk (keys : Keys Nat) (k : Nat) (lo r : Int) : Prop :=
  Sinks keys k lo r ∨
    (k + 1 = 4294967296 ∧ ∃ r', Meets keys k lo r lo r' ∧ Sinks keys 0 lo r')

theorem Sunk.keyed {keys : Keys Nat} {k : Nat} {lo r : Int} (h : Sunk keys k lo r) :
    ∃ v, keys lo = some v ∧ k ≤ v := by
  rcases h with hsinks | ⟨_, r', hmeets, _⟩
  · obtain ⟨_, v, hv, hlt⟩ := hsinks.keyed
    exact ⟨v, hv, Nat.le_of_lt hlt⟩
  · exact ⟨k, hmeets.keyed.2.2.2, Nat.le_refl k⟩

/-- One above its key a match is out of reach. -/
theorem not_sunk_next {keys : Keys Nat} {k : Nat} {m r' : Int} (hkey : keys m = some k) :
    ¬ Sunk keys (k + 1) m r' := by
  intro hsunk
  obtain ⟨v, hv, hle⟩ := hsunk.keyed
  have heq := Option.some.inj (hkey.symm.trans hv)
  omega

/-! ## Staying inside -/

/-- The window does not get below `lo`: where it reaches down to it, the search
has nothing to sink on. -/
structure Kept (keys : Keys Nat) (lo : Int) (s : Search) : Prop where
  le_l : lo ≤ s.l
  le_r : lo ≤ s.r
  safe : s.l = lo → ¬ Sunk keys s.addr.toNat lo s.r

theorem Kept.step {keys : Keys Nat} {lo : Int} {s s' : Search} (h : Kept keys lo s)
    (hopen : s.l ≤ s.r) (hstep : Step keys s s') : Kept keys lo s' := by
  have hl := h.le_l
  have hr := h.le_r
  cases hstep with
  | skip hnone => exact ⟨by simp only; omega, hr, fun hbottom => by simp only at hbottom; omega⟩
  | raise hlast hlt => exact ⟨by simp only; omega, hr, fun hbottom => by simp only at hbottom; omega⟩
  | @lower m v hlast hlt =>
      have hm := hlast.l_le
      rcases Int.lt_or_eq_of_le hl with habove | rfl
      · exact ⟨hl, by simp only; omega, fun hbottom => by simp only at hbottom; omega⟩
      · have hkept := h.safe rfl
        have hne : m ≠ s.l := by
          rintro rfl
          exact hkept (.inl (.bottom hopen hlast hlt))
        refine ⟨hl, by simp only; omega, fun _ => ?_⟩
        rintro (hsinks | ⟨hend, r', hmeets, hsinks⟩)
        · exact hkept (.inl (.lower hopen hlast hlt hsinks))
        · exact hkept (.inr ⟨hend, r', .lower hopen hlast hlt hmeets, hsinks⟩)
  | @exact m hlast =>
      have hm := hlast.l_le
      refine ⟨Int.le_trans hl hm, hr, ?_⟩
      rintro rfl
      have hbottom : s.l = m := Int.le_antisymm hm hl
      rcases Nat.lt_or_ge (s.addr.toNat + 1) 4294967296 with hroom | hend
      · rw [next_toNat hroom]
        exact not_sunk_next hlast.keyed
      · have hend : s.addr.toNat + 1 = 4294967296 := by
          have hlt := s.addr.isLt
          omega
        rw [next_zero hend]
        rintro (hsinks | ⟨hzero, _⟩)
        · rw [hbottom] at hlast hopen
          exact h.safe hbottom (.inr ⟨hend, s.r, .here hopen hlast, hsinks⟩)
        · omega

/-- After a match the search stays at it or behind. -/
structure Past (keys : Keys Nat) (m hi : Int) (s : Search) : Prop extends Kept keys m s where
  any : s.anyMatches = true
  right_eq : s.right = s.r
  le_left : m ≤ s.left
  le_hi : s.r ≤ hi

theorem Past.step {keys : Keys Nat} {m hi : Int} {s s' : Search} (h : Past keys m hi s)
    (hopen : s.l ≤ s.r) (hstep : Step keys s s') : Past keys m hi s' := by
  have hkept := h.toKept.step hopen hstep
  have hinside := hstep.inside hopen
  have hl := h.le_l
  refine ⟨hkept, ?_, ?_, ?_, Int.le_trans hinside.2 h.le_hi⟩
  · cases hstep with
    | skip hnone => exact h.any
    | _ => rfl
  · cases hstep with
    | lower hlast hlt => rfl
    | _ => exact h.right_eq
  · cases hstep with
    | raise hlast hlt => exact Int.le_trans hl hlast.l_le
    | exact hlast => exact Int.le_trans hl hlast.l_le
    | _ => exact h.le_left

/-- A search that stays behind a match gives a place behind it. -/
theorem Past.result {keys : Keys Nat} {stabs : List Stab} {type : Byte} {lo hi m : Int}
    {addr : Word} {s : Search} (hm : 0 ≤ m) (hhi : hi < stabs.length)
    (hrun : searchLoop stabs type (2 * (hi + 1 - lo).toNat + 2) ⟨lo, hi, lo, hi, false, addr⟩ =
      some s) (h : Past keys m hi s) :
    ∃ a b, stabBinsearch stabs lo hi type addr = some (a, b) ∧ m ≤ a ∧ a ≤ b ∧ b ≤ hi := by
  have hright := h.right_eq
  have hleft := h.le_left
  have hr := h.le_r
  have hrhi := h.le_hi
  obtain ⟨a, hfound, ha, hplace⟩ := stabBinsearch_matched hrun h.any (by omega) (by omega)
  exact ⟨a, s.right, hfound, by omega, ha, by omega⟩

/-! ## The three ways past the region -/

theorem Matched.sinking {keys : Keys Nat} {m r' : Int} {addr : Word} {s : Search}
    (h : Matched m r' addr s) (hsinks : Sinks keys addr.toNat m r') :
    Sinking keys addr.toNat m s where
  left := h.left
  l := h.l
  right_eq := h.right.trans h.r.symm
  addr := by rw [h.addr]
  sinks := .inl (h.r.symm ▸ hsinks)

theorem Matched.past {keys : Keys Nat} {m r' hi : Int} {addr : Word} {s : Search}
    (h : Matched m r' addr s) (hm : m ≤ r') (hhi : r' ≤ hi)
    (hkept : ¬ Sunk keys addr.toNat m r') : Past keys m hi s where
  le_l := Int.le_of_eq h.l.symm
  le_r := by
    have hr := h.r
    omega
  safe := fun _ => by
    rw [h.addr, h.r]
    exact hkept
  any := h.any
  right_eq := h.right.trans h.r.symm
  le_left := Int.le_of_eq h.left.symm
  le_hi := by
    have hr := h.r
    omega

/-- What the search gives once it has run past the region of `k`. -/
inductive Overrun (keys : Keys Nat) (k : Nat) (lo hi : Int) : Int → Int → Prop
  /-- It ends at or behind an entry one above. -/
  | past {m a b : Int} (hlo : lo ≤ m) (hle : m ≤ a) (hab : a ≤ b) (hhi : b ≤ hi)
      (hkey : keys m = some (k + 1)) : Overrun keys k lo hi a b
  /-- The entry one above is at the last address. -/
  | next {m r' m₂ r₂ : Int} (hend : k + 2 = 4294967296) (hmeets : Meets keys k lo hi m r')
      (hmeets₂ : Meets keys (k + 1) m r' m₂ r₂) : Overrun keys k lo hi (m₂ - 1) (m₂ - 1)
  /-- The match itself is at the last address. -/
  | top {m r' : Int} (hend : k + 1 = 4294967296) (hmeets : Meets keys k lo hi m r') :
      Overrun keys k lo hi (m - 1) (m - 1)

section

variable {stabs : List Stab} {type : Byte} {lo hi : Int} {addr : Word}

/-- A match at the last address lets the search sink below it. -/
theorem stabBinsearch_sinks (hlo : 0 ≤ lo) (hhi : hi < stabs.length) {m r' : Int}
    (hend : addr.toNat + 1 = 4294967296)
    (hmeets : Meets (keysOf stabs type) addr.toNat lo hi m r')
    (hsinks : Sinks (keysOf stabs type) 0 m r') :
    stabBinsearch stabs lo hi type addr = some (m - 1, m - 1) := by
  have hm := hmeets.keyed
  rw [← next_zero hend] at hsinks
  obtain ⟨s, hrun, hs, hclosed⟩ := searchLoop_pending hlo hhi hmeets (fun s h => h.sinking hsinks)
    (fun _ _ => Sinking.step)
  exact hs.result (by omega) (by omega) hrun hclosed

/-- Behind a key that is not zero an ordered table sinks for zero. -/
theorem sinks_behind (hordered : Ordered (keysOf stabs type) lo hi) {m r' : Int} {k : Nat}
    (hm : lo ≤ m) (hmr : m ≤ r') (hr : r' ≤ hi) (hkey : keysOf stabs type m = some k)
    (hk : 0 < k) : Sinks (keysOf stabs type) 0 m r' :=
  sinks_of_above hmr ⟨k, hkey⟩ fun i hi hie v hv =>
    Nat.lt_of_lt_of_le hk (hordered m i hm hi (Int.le_trans hie hr) k v hkey hv)

theorem stabBinsearch_top (hlo : 0 ≤ lo) (hhi : hi < stabs.length)
    (hordered : Ordered (keysOf stabs type) lo hi) {m r' : Int}
    (hend : addr.toNat + 1 = 4294967296)
    (hmeets : Meets (keysOf stabs type) addr.toNat lo hi m r') :
    stabBinsearch stabs lo hi type addr = some (m - 1, m - 1) := by
  have hm := hmeets.keyed
  exact stabBinsearch_sinks hlo hhi hend hmeets
    (sinks_behind hordered hm.1 hmeets.le_last hm.2.1 hm.2.2.2 (by omega))

theorem stabBinsearch_next (hlo : 0 ≤ lo) (hhi : hi < stabs.length)
    (hordered : Ordered (keysOf stabs type) lo hi) {m r' m₂ r₂ : Int}
    (hend : addr.toNat + 2 = 4294967296)
    (hmeets : Meets (keysOf stabs type) addr.toNat lo hi m r')
    (hmeets₂ : Meets (keysOf stabs type) (addr.toNat + 1) m r' m₂ r₂) :
    stabBinsearch stabs lo hi type addr = some (m₂ - 1, m₂ - 1) := by
  have hm := hmeets.keyed
  have hm₂ := hmeets₂.keyed
  have hnext : (addr + 1).toNat = addr.toNat + 1 := next_toNat (by omega)
  have hzero : (addr + 1 + 1).toNat = 0 := next_zero (by omega)
  have hsinks := sinks_behind hordered (Int.le_trans hm.1 hm₂.1) hmeets₂.le_last
    (Int.le_trans hm₂.2.1 hm.2.1) hm₂.2.2.2 (Nat.succ_pos _)
  rw [← hnext] at hmeets₂
  rw [← hzero] at hsinks
  obtain ⟨s, hrun, hs, hclosed⟩ := searchLoop_pending
    (J := Pending (keysOf stabs type) (addr + 1) m₂ r₂ (Sinking (keysOf stabs type) _ m₂)) hlo hhi
    hmeets (fun s h => h.pending hmeets₂)
    (fun _ _ => Pending.step (fun s h => h.sinking hsinks) (fun _ _ => Sinking.step))
  exact (hs.closed hclosed).result (by omega) (by omega) hrun hclosed

theorem stabBinsearch_past (hlo : 0 ≤ lo) (hhi : hi < stabs.length) {m r' m₂ r₂ : Int}
    (hroom : addr.toNat + 2 < 4294967296)
    (hmeets : Meets (keysOf stabs type) addr.toNat lo hi m r')
    (hmeets₂ : Meets (keysOf stabs type) (addr.toNat + 1) m r' m₂ r₂) :
    ∃ a b, stabBinsearch stabs lo hi type addr = some (a, b) ∧
      m₂ ≤ a ∧ a ≤ b ∧ b ≤ hi := by
  have hm := hmeets.keyed
  have hm₂ := hmeets₂.keyed
  have hnext : (addr + 1).toNat = addr.toNat + 1 := next_toNat (by omega)
  have hnext₂ : (addr + 1 + 1).toNat = addr.toNat + 1 + 1 := by
    rw [next_toNat (by omega), hnext]
  rw [← hnext] at hmeets₂
  obtain ⟨s, hrun, hs, hclosed⟩ := searchLoop_pending
    (J := Pending (keysOf stabs type) (addr + 1) m₂ r₂ (Past (keysOf stabs type) m₂ hi))
    hlo hhi hmeets (fun s h => h.pending hmeets₂)
    (fun _ _ => Pending.step
      (fun s h => h.past hmeets₂.le_last (Int.le_trans hm₂.2.1 hm.2.1)
        (by rw [hnext₂]; exact not_sunk_next hm₂.2.2.2))
      (fun _ _ => Past.step))
  exact (hs.closed hclosed).result (by omega) hhi hrun

/-- In an ordered table a crowded key is always overrun. -/
theorem stabBinsearch_overrun (hlo : 0 ≤ lo) (hhi : hi < stabs.length)
    (hordered : Ordered (keysOf stabs type) lo hi)
    (hcrowded : Crowded (keysOf stabs type) addr.toNat lo hi) :
    ∃ a b, stabBinsearch stabs lo hi type addr = some (a, b) ∧
      Overrun (keysOf stabs type) addr.toNat lo hi a b := by
  obtain ⟨m, r', hmeets, hend | ⟨i, hi, hie, hkey⟩⟩ := hcrowded
  · exact ⟨_, _, stabBinsearch_top hlo hhi hordered hend hmeets, .top hend hmeets⟩
  · have hm := hmeets.keyed
    obtain ⟨m₂, r₂, hmeets₂⟩ := exists_meets (hordered.mono hm.1 hm.2.1) hi hie hkey
    have hm₂ := hmeets₂.keyed
    have hroom : addr.toNat + 1 < 4294967296 := by
      obtain ⟨stab, _, _, hvalue⟩ := keysOf_some hkey
      have hlt := stab.n_value.isLt
      omega
    rcases Nat.lt_or_ge (addr.toNat + 2) 4294967296 with hless | hlast
    · obtain ⟨a, b, hfound, hle, hab, hbhi⟩ := stabBinsearch_past hlo hhi hless hmeets hmeets₂
      exact ⟨a, b, hfound, .past (Int.le_trans hm.1 hm₂.1) hle hab hbhi hm₂.2.2.2⟩
    · have hend : addr.toNat + 2 = 4294967296 := by omega
      exact ⟨_, _, stabBinsearch_next hlo hhi hordered hend hmeets hmeets₂,
        .next hend hmeets hmeets₂⟩

/-! ## When the region is found -/

/-- The search brackets the address. -/
def FindsRegion (stabs : List Stab) (type : Byte) (lo hi : Int) (addr : Word) : Prop :=
  ∃ first last, stabBinsearch stabs lo hi type addr = some (first, last) ∧
    Contains (keysOf stabs type) lo hi addr.toNat first last

/-- One above the address is the last address, and the entry before its match
there is the one that is looked for. -/
def NextIsLast (keys : Keys Nat) (k : Nat) (lo hi : Int) : Prop :=
  k + 2 = 4294967296 ∧ ∃ m r' m₂ r₂ v, Meets keys k lo hi m r' ∧
    Meets keys (k + 1) m r' m₂ r₂ ∧ keys (m₂ - 1) = some v ∧ v ≤ k

/-- The entry before the match one above is the last one at or below the address. -/
theorem contains_before_next {keys : Keys Nat} {k : Nat} (hordered : Ordered keys lo hi)
    {m r' m₂ r₂ : Int} {v : Nat} (hmeets : Meets keys k lo hi m r')
    (hmeets₂ : Meets keys (k + 1) m r' m₂ r₂) (hv : keys (m₂ - 1) = some v) (hle : v ≤ k) :
    Contains keys lo hi k (m₂ - 1) (m₂ - 1) := by
  have hm := hmeets.keyed
  have hm₂ := hmeets₂.keyed
  have hne : m ≠ m₂ := by
    rintro rfl
    have heq := Option.some.inj (hm.2.2.2.symm.trans hm₂.2.2.2)
    omega
  constructor
  · refine ⟨by omega, Int.le_refl _, by omega, ⟨v, hv⟩, fun i hi hie => by omega, .inr ?_⟩
    rw [Int.sub_add_cancel]
    exact ⟨_, hm₂.2.2.2⟩
  · intro w hw
    cases hv.symm.trans hw
    exact hle
  · intro i hi hie w hw
    have hge := hordered m₂ i (by omega) (by omega) hie _ _ hm₂.2.2.2 hw
    omega

/-- The search brackets an address unless it runs past it. -/
theorem findsRegion_iff (hlo : 0 ≤ lo) (hhi : hi < stabs.length)
    (hordered : Ordered (keysOf stabs type) lo hi)
    (hentry : ∃ i v, lo ≤ i ∧ i ≤ hi ∧ keysOf stabs type i = some v ∧ v ≤ addr.toNat) :
    FindsRegion stabs type lo hi addr ↔
      ¬ Crowded (keysOf stabs type) addr.toNat lo hi ∨
        NextIsLast (keysOf stabs type) addr.toNat lo hi := by
  constructor
  · rintro ⟨first, last, hfound, hcontains⟩
    by_contra hnot
    obtain ⟨hcrowded, hnext⟩ := not_or.mp hnot
    obtain ⟨a, b, hrun, hover⟩ :=
      stabBinsearch_overrun hlo hhi hordered (Classical.not_not.mp hcrowded)
    cases hrun.symm.trans hfound
    obtain ⟨v, hv⟩ := hcontains.keyed
    have hatmost := hcontains.at_most v hv
    cases hover with
    | past hlo' hle hab hhi' hkey =>
        have hge := hordered _ _ hlo' hle (Int.le_trans hab hhi') _ _ hkey hv
        omega
    | next hend hmeets hmeets₂ =>
        exact hnext ⟨hend, _, _, _, _, v, hmeets, hmeets₂, hv, hatmost⟩
    | @top m r' hend hmeets =>
        have hm := hmeets.keyed
        have habove := hcontains.greatest m (by omega) hm.2.2.1 _ hm.2.2.2
        omega
  · rintro (hclear | ⟨hend, m, r', m₂, r₂, v, hmeets, hmeets₂, hv, hle⟩)
    · obtain ⟨first, last, hcontains⟩ := exists_contains hentry
      exact ⟨first, last, stabBinsearch_contains hlo hhi hordered hclear hcontains, hcontains⟩
    · exact ⟨_, _, stabBinsearch_next hlo hhi hordered hend hmeets hmeets₂,
        contains_before_next hordered hmeets hmeets₂ hv hle⟩

/-! ## When a miss is told -/

/-- Bounds that cross tell a miss, and bounds that do not cross start at an
entry at or below the address. -/
def TellsMiss (stabs : List Stab) (type : Byte) (lo hi : Int) (addr : Word) : Prop :=
  ∃ left right, stabBinsearch stabs lo hi type addr = some (left, right) ∧
    ((∀ i, lo ≤ i → i ≤ hi → ∀ v, keysOf stabs type i = some v → addr.toNat < v) → right < left) ∧
    (left ≤ right → ∃ stab, stabAt stabs left = some stab ∧ stab.n_type = type ∧
      stab.n_value ≤ addr)

/-- The address is the last one, and the entry before its match is of the same type. -/
def LastRepeated (keys : Keys Nat) (k : Nat) (lo hi : Int) : Prop :=
  k + 1 = 4294967296 ∧ ∃ m r' v, Meets keys k lo hi m r' ∧ keys (m - 1) = some v

/-- A bracket in a range with an entry at or below the address. -/
theorem tellsMiss_of_hit {left right : Int} {v : Nat}
    (hentry : ∃ i v, lo ≤ i ∧ i ≤ hi ∧ keysOf stabs type i = some v ∧ v ≤ addr.toNat)
    (hfound : stabBinsearch stabs lo hi type addr = some (left, right))
    (hkey : keysOf stabs type left = some v) (hle : v ≤ addr.toNat) :
    TellsMiss stabs type lo hi addr := by
  refine ⟨left, right, hfound, ?_, ?_⟩
  · intro habove
    obtain ⟨i, w, hi, hie, hw, hwle⟩ := hentry
    exact absurd hwle (Nat.not_le.mpr (habove i hi hie w hw))
  · intro _
    obtain ⟨stab, hat, htype, rfl⟩ := keysOf_some hkey
    exact ⟨stab, hat, htype, hle⟩

/-- In a range without an entry of the type the bounds cross. -/
theorem tellsMiss_of_none (hlo : 0 ≤ lo) (hhi : hi < stabs.length)
    (hnone : ∀ i, lo ≤ i → i ≤ hi → keysOf stabs type i = none) :
    TellsMiss stabs type lo hi addr := by
  refine ⟨lo, lo - 1, stabBinsearch_absent hlo hhi hnone addr, fun _ => ?_, fun h => ?_⟩
  · omega
  · omega

/-- A range whose entries are all above the address does not tell the miss. -/
theorem TellsMiss.entry (hlo : 0 ≤ lo) (hhi : hi < stabs.length) (hle : lo ≤ hi)
    (hhas : ∃ i v, lo ≤ i ∧ i ≤ hi ∧ keysOf stabs type i = some v)
    (h : TellsMiss stabs type lo hi addr) :
    ∃ i v, lo ≤ i ∧ i ≤ hi ∧ keysOf stabs type i = some v ∧ v ≤ addr.toNat := by
  obtain ⟨left, right, hfound, hmiss, _⟩ := h
  obtain ⟨left', right', hfound', _, _, _, hmatch⟩ := stabBinsearch_ranged addr hlo hle hhi
  cases hfound.symm.trans hfound'
  by_contra habove
  have hcross := hmiss fun i hi hie v hv =>
    Nat.not_le.mp fun hle => habove ⟨i, v, hi, hie, hv, hle⟩
  exact absurd (hmatch.mpr hhas) (Int.not_le.mpr hcross)

/-- An overrun search holds an entry at or below the address only at the two
last addresses. -/
theorem TellsMiss.overrun {a b : Int} (hordered : Ordered (keysOf stabs type) lo hi)
    (hrun : stabBinsearch stabs lo hi type addr = some (a, b))
    (hover : Overrun (keysOf stabs type) addr.toNat lo hi a b)
    (h : TellsMiss stabs type lo hi addr) :
    NextIsLast (keysOf stabs type) addr.toNat lo hi ∨
      LastRepeated (keysOf stabs type) addr.toNat lo hi := by
  obtain ⟨left, right, hfound, _, hhit⟩ := h
  cases hrun.symm.trans hfound
  cases hover with
  | past hlo' hle hab hhi' hkey =>
      obtain ⟨stab, hat, htype, hvalue⟩ := hhit hab
      have hv := keysOf_typed hat htype
      have hge := hordered _ _ hlo' hle (Int.le_trans hab hhi') _ _ hkey hv
      have hatmost : stab.n_value.toNat ≤ addr.toNat := hvalue
      omega
  | next hend hmeets hmeets₂ =>
      obtain ⟨stab, hat, htype, hvalue⟩ := hhit (Int.le_refl _)
      exact .inl ⟨hend, _, _, _, _, _, hmeets, hmeets₂, keysOf_typed hat htype, hvalue⟩
  | top hend hmeets =>
      obtain ⟨stab, hat, htype, _⟩ := hhit (Int.le_refl _)
      exact .inr ⟨hend, _, _, _, hmeets, keysOf_typed hat htype⟩

/-- The bounds tell a miss where there is no entry of the type at all, and hold
an entry unless the search runs past it. -/
theorem tellsMiss_iff (hlo : 0 ≤ lo) (hhi : hi < stabs.length)
    (hordered : Ordered (keysOf stabs type) lo hi) :
    TellsMiss stabs type lo hi addr ↔
      (∀ i, lo ≤ i → i ≤ hi → keysOf stabs type i = none) ∨
      ((∃ i v, lo ≤ i ∧ i ≤ hi ∧ keysOf stabs type i = some v ∧ v ≤ addr.toNat) ∧
        (¬ Crowded (keysOf stabs type) addr.toNat lo hi ∨
          NextIsLast (keysOf stabs type) addr.toNat lo hi ∨
          LastRepeated (keysOf stabs type) addr.toNat lo hi)) := by
  constructor
  · intro htells
    rcases keyed_or_none (keysOf stabs type) lo hi with hnone | ⟨hle, hhas⟩
    · exact .inl hnone
    · refine .inr ⟨htells.entry hlo hhi hle hhas, ?_⟩
      rw [or_iff_not_imp_left, Classical.not_not]
      intro hcrowded
      obtain ⟨a, b, hrun, hover⟩ := stabBinsearch_overrun hlo hhi hordered hcrowded
      exact htells.overrun hordered hrun hover
  · rintro (hnone | ⟨hentry, hclear | ⟨hend, m, r', m₂, r₂, v, hmeets, hmeets₂, hv, hle⟩ |
      ⟨hend, m, r', v, hmeets, hv⟩⟩)
    · exact tellsMiss_of_none hlo hhi hnone
    · obtain ⟨first, last, hcontains⟩ := exists_contains hentry
      obtain ⟨v, hv⟩ := hcontains.keyed
      exact tellsMiss_of_hit hentry (stabBinsearch_contains hlo hhi hordered hclear hcontains) hv
        (hcontains.at_most v hv)
    · exact tellsMiss_of_hit hentry (stabBinsearch_next hlo hhi hordered hend hmeets hmeets₂) hv hle
    · have hle : v ≤ addr.toNat := by
        obtain ⟨stab, _, _, hvalue⟩ := keysOf_some hv
        have hlt := stab.n_value.isLt
        omega
      exact tellsMiss_of_hit hentry (stabBinsearch_top hlo hhi hordered hend hmeets) hv hle

end

/-! ## Two entries one address apart -/

def oneApart : List Stab := [⟨0, 0x24, 0, 1⟩, ⟨0, 0x24, 0, 2⟩]

theorem oneApart_keys {i : Int} {v : Nat} (h : keysOf oneApart 0x24 i = some v) :
    (i = 0 ∧ v = 1) ∨ (i = 1 ∧ v = 2) := by
  obtain ⟨stab, hat, _, rfl⟩ := keysOf_some h
  have hbounds := stabAt_bounds hat
  have hi : i = 0 ∨ i = 1 := by
    simp only [oneApart, List.length_cons, List.length_nil] at hbounds
    omega
  rcases hi with rfl | rfl
  all_goals
    cases hat
    decide

theorem ordered_oneApart : Ordered (keysOf oneApart 0x24) 0 1 := by
  intro i j _ hij _ v w hv hw
  have hi := oneApart_keys hv
  have hj := oneApart_keys hw
  omega

theorem clear_oneApart : ¬ Crowded (keysOf oneApart 0x24) 5 0 1 := by
  apply not_crowded_of_absent
  intro i _ _ hkey
  have hi := oneApart_keys hkey
  omega

/-- Above both entries the second one is found. -/
theorem findsRegion_above : FindsRegion oneApart 0x24 0 1 5 :=
  (findsRegion_iff (by decide) (by decide) ordered_oneApart
    ⟨0, 1, by decide, by decide, rfl, by decide⟩).mpr (.inl clear_oneApart)

theorem tellsMiss_above : TellsMiss oneApart 0x24 0 1 5 :=
  (tellsMiss_iff (by decide) (by decide) ordered_oneApart).mpr
    (.inr ⟨⟨0, 1, by decide, by decide, rfl, by decide⟩, .inl clear_oneApart⟩)

/-- At the first entry the search goes on to the second. -/
theorem stabBinsearch_overruns :
    ¬ ∀ (stabs : List Stab) (type : Byte) (lo hi : Int) (addr : Word), 0 ≤ lo →
      hi < stabs.length → Ordered (keysOf stabs type) lo hi →
      (∃ i v, lo ≤ i ∧ i ≤ hi ∧ keysOf stabs type i = some v ∧ v ≤ addr.toNat) →
      FindsRegion stabs type lo hi addr := by
  intro hall
  obtain ⟨first, last, hfound, hcontains⟩ := hall oneApart 0x24 0 1 1 (by decide) (by decide)
    ordered_oneApart ⟨0, 1, by decide, by decide, rfl, by decide⟩
  have hrun : stabBinsearch oneApart 0 1 0x24 1 = some (1, 1) := rfl
  cases hrun.symm.trans hfound
  exact absurd (hcontains.at_most 2 rfl) (by decide)

/-- Below both entries the bounds do not cross. -/
theorem stabBinsearch_misses :
    ¬ ∀ (stabs : List Stab) (type : Byte) (lo hi : Int) (addr : Word), 0 ≤ lo →
      hi < stabs.length → Ordered (keysOf stabs type) lo hi → TellsMiss stabs type lo hi addr := by
  intro hall
  obtain ⟨left, right, hfound, hmiss, _⟩ := hall oneApart 0x24 0 1 0 (by decide) (by decide)
    ordered_oneApart
  have hrun : stabBinsearch oneApart 0 1 0x24 0 = some (-1, -1) := rfl
  cases hrun.symm.trans hfound
  have hcross := hmiss fun i _ _ v hv => by
    have hi := oneApart_keys hv
    have hzero : (0 : Word).toNat = 0 := rfl
    omega
  omega

end JOSKernel.Kern.StabOverrun
