/-
Neoip/Slotpool.lean

The pool of slots: `slotpool_t`.

A slot is an identifier and its pointer.  The next one is searched from
`next_slot` on, and the search ends at the identifier `NONE` too, where the
counter wraps around: it does not begin again, so that the slots before
`next_slot` are not looked at, be they free or not.

A pointer which is in the pool is never replaced, whatever is allocated later,
so that only the allocation itself can go wrong.

Main result: `slotpool_iff`.
-/
import Neoip.Omap
import Neoip.Run

namespace Neoip

/-- `slot_id_t`. -/
abbrev SlotId := UInt32

/-- `slotpool_t`, with pointers of any type. -/
structure Slotpool (α : Type) where
  next_slot : SlotId
  slot_db : List (SlotId × α)

/-- The calls of a user. -/
inductive SlotEvent (α : Type)
  | allocate (ptr : α)
  | release (slot : SlotId)

namespace Slotpool

variable {α : Type}

/-- `slotpool_t::NONE`. -/
def NONE : SlotId := 0

def ctor : Slotpool α := ⟨NONE + 1, []⟩

def exist (slot : SlotId) (s : Slotpool α) : Bool := (Omap.find slot s.slot_db).isSome

def find (slot : SlotId) (s : Slotpool α) : Option α := Omap.find slot s.slot_db

/-- The slots from this one to the last one, and none from `NONE`. -/
def room (slot : SlotId) : ℕ := if slot = NONE then 0 else 2 ^ 32 - slot.toNat

theorem toNat_pos_of_ne {slot : SlotId} (h : slot ≠ NONE) : 0 < slot.toNat :=
  Nat.pos_of_ne_zero fun hzero => h (UInt32.toNat_inj.1 hzero)

theorem room_succ {slot : SlotId} (h : slot ≠ NONE) : room (slot + 1) < room slot := by
  have hpos := toNat_pos_of_ne h
  have hlt := slot.toNat_lt
  have hsucc : (slot + 1).toNat = (slot.toNat + 1) % 2 ^ 32 := UInt32.toNat_add slot 1
  rw [room, room, if_neg h]
  split_ifs with hnone
  · omega
  · have hpos' := toNat_pos_of_ne hnone
    omega

/-- The loop of `allocate`. -/
def search (s : Slotpool α) (next_slot : SlotId) : SlotId :=
  if h : s.exist next_slot = true ∧ next_slot ≠ NONE then search s (next_slot + 1) else next_slot
termination_by room next_slot
decreasing_by exact room_succ h.2

/-- `allocate`, with the slot which it returns. -/
def allocate (ptr : α) (s : Slotpool α) : SlotId × Slotpool α :=
  let allocated_slot := s.search s.next_slot
  let next_slot := allocated_slot + 1
  (allocated_slot,
    { next_slot := if next_slot = NONE then next_slot + 1 else next_slot
      slot_db := Omap.insert (fun a b => decide (a < b)) allocated_slot ptr s.slot_db })

def release (slot : SlotId) (s : Slotpool α) : Slotpool α :=
  { s with slot_db := Omap.erase slot s.slot_db }

def step (s : Slotpool α) : SlotEvent α → Slotpool α
  | .allocate ptr => (s.allocate ptr).2
  | .release slot => s.release slot

/-- What an allocation is for: the slot is not `NONE` and is not in use, and its pointer is found
until it is released. -/
structure AllocatesWell (ptr : α) (s : Slotpool α) : Prop where
  ne_none : (s.allocate ptr).1 ≠ NONE
  unused : s.exist (s.allocate ptr).1 = false
  found : ∀ evs, .release (s.allocate ptr).1 ∉ evs →
    (run step (s.allocate ptr).2 evs).find (s.allocate ptr).1 = some ptr

/-- A slot is free which the search comes to. -/
def HasRoom (s : Slotpool α) : Prop := ∃ slot, s.next_slot ≤ slot ∧ s.exist slot = false

/-! ### The search -/

section Search

variable {s : Slotpool α} {slot slot' : SlotId}

theorem search_of_exist (hexist : s.exist slot = true) (hne : slot ≠ NONE) :
    s.search slot = s.search (slot + 1) := by
  rw [search, dif_pos ⟨hexist, hne⟩]

theorem search_of_not_exist (hexist : s.exist slot = false) : s.search slot = slot := by
  rw [search, dif_neg]
  rintro ⟨hexist', -⟩
  rw [hexist] at hexist'
  cases hexist'

theorem search_none : s.search NONE = NONE := by
  rw [search, dif_neg fun h => h.2 rfl]

theorem lt_succ_of_ne (hne : slot + 1 ≠ NONE) : slot.toNat + 1 = (slot + 1).toNat := by
  have hlt := slot.toNat_lt
  have hpos := toNat_pos_of_ne hne
  have hsucc : (slot + 1).toNat = (slot.toNat + 1) % 2 ^ 32 := UInt32.toNat_add slot 1
  omega

/-- **The search** ends at a free slot, or at `NONE` behind the last slot. -/
theorem search_cases (slot : SlotId) : s.exist (s.search slot) = false ∨ s.search slot = NONE := by
  induction slot using search.induct (s := s) with
  | case1 slot h ih => rwa [search_of_exist h.1 h.2]
  | case2 slot h =>
    by_cases hexist : s.exist slot = true
    · have hnone : slot = NONE := not_not.1 fun hne => h ⟨hexist, hne⟩
      rw [hnone, search_none]
      exact .inr rfl
    · rw [Bool.not_eq_true] at hexist
      rw [search_of_not_exist hexist]
      exact .inl hexist

/-- It ends before `NONE` exactly when a slot which it comes to is free. -/
theorem search_ne_none_iff (hne : slot ≠ NONE) :
    s.search slot ≠ NONE ↔ ∃ slot', slot ≤ slot' ∧ s.exist slot' = false := by
  induction slot using search.induct (s := s) with
  | case1 slot h ih =>
    rw [search_of_exist h.1 h.2]
    by_cases hnone : slot + 1 = NONE
    · -- the last slot, which is in use
      rw [hnone, search_none]
      refine iff_of_false (fun h => h rfl) ?_
      rintro ⟨slot', hle, hfree⟩
      have hlast : slot'.toNat = slot.toNat := by
        have hle := UInt32.le_iff_toNat_le.1 hle
        have hlt := slot'.toNat_lt
        have hsucc : (slot + 1).toNat = (slot.toNat + 1) % 2 ^ 32 := UInt32.toNat_add slot 1
        rw [hnone] at hsucc
        have hzero : 0 = (slot.toNat + 1) % 2 ^ 32 := hsucc
        have hlt' := slot.toNat_lt
        omega
      rw [UInt32.toNat_inj.1 hlast, h.1] at hfree
      cases hfree
    · rw [ih hnone]
      have hsucc := lt_succ_of_ne hnone
      constructor
      · rintro ⟨slot', hle, hfree⟩
        refine ⟨slot', UInt32.le_iff_toNat_le.2 ?_, hfree⟩
        have hle := UInt32.le_iff_toNat_le.1 hle
        omega
      · rintro ⟨slot', hle, hfree⟩
        have hle := UInt32.le_iff_toNat_le.1 hle
        have hother : slot'.toNat ≠ slot.toNat := by
          intro heq
          rw [UInt32.toNat_inj.1 heq, h.1] at hfree
          cases hfree
        exact ⟨slot', UInt32.le_iff_toNat_le.2 (by omega), hfree⟩
  | case2 slot h =>
    have hfree : s.exist slot = false := by
      rw [← Bool.not_eq_true]
      exact fun hexist => h ⟨hexist, hne⟩
    rw [search_of_not_exist hfree]
    exact iff_of_true hne ⟨slot, UInt32.le_refl slot, hfree⟩

end Search

/-! ### The pool over time -/

section Runs

variable {s : Slotpool α} {slot : SlotId} {ptr : α} {evs : List (SlotEvent α)}

/-- The counter never stays at `NONE`. -/
theorem next_slot_allocate (ptr : α) (s : Slotpool α) : (s.allocate ptr).2.next_slot ≠ NONE := by
  show (if s.search s.next_slot + 1 = NONE then s.search s.next_slot + 1 + 1
    else s.search s.next_slot + 1) ≠ NONE
  split_ifs with hnone
  · rw [hnone]
    decide
  · exact hnone

theorem next_slot_ne (hs : s.next_slot ≠ NONE) (evs : List (SlotEvent α)) :
    (run step s evs).next_slot ≠ NONE :=
  run_invariant (P := fun s : Slotpool α => s.next_slot ≠ NONE) (fun s ev h => by
    cases ev with
    | allocate ptr => exact next_slot_allocate ptr s
    | release slot => exact h) hs evs

theorem find_allocate (hunused : s.exist (s.allocate ptr).1 = false) :
    (s.allocate ptr).2.find (s.allocate ptr).1 = some ptr := by
  have hfind : Omap.find (s.allocate ptr).1 s.slot_db = none := by
    rwa [exist, Option.isSome_eq_false_iff, Option.isNone_iff_eq_none] at hunused
  show Omap.find (s.allocate ptr).1 (Omap.insert _ (s.allocate ptr).1 ptr s.slot_db) = some ptr
  rw [Omap.insert_of_find hfind, Omap.find_place_self hfind]

/-- **A step** keeps the pointer of a slot which it does not release. -/
theorem find_step (hfind : s.find slot = some ptr) {ev : SlotEvent α} (hev : ev ≠ .release slot) :
    (s.step ev).find slot = some ptr := by
  cases ev with
  | allocate ptr' =>
    show Omap.find slot (Omap.insert _ (s.search s.next_slot) ptr' s.slot_db) = some ptr
    rw [Omap.insert]
    cases hother : Omap.find (s.search s.next_slot) s.slot_db with
    | some old => exact hfind
    | none =>
      have hne : s.search s.next_slot ≠ slot := by
        rintro heq
        rw [heq, show Omap.find slot s.slot_db = some ptr from hfind] at hother
        cases hother
      show Omap.find slot (Omap.place _ _ _ _) = _
      rw [Omap.find_place_of_ne hne]
      exact hfind
  | release slot' =>
    have hne : slot' ≠ slot := by
      rintro rfl
      exact hev rfl
    exact (Omap.find_erase_of_ne hne).trans hfind

theorem find_run (hfind : s.find slot = some ptr) (hkept : .release slot ∉ evs) :
    (run step s evs).find slot = some ptr := by
  induction evs generalizing s with
  | nil => exact hfind
  | cons ev evs ih =>
    have hev : ev ≠ .release slot := by
      rintro rfl
      exact hkept List.mem_cons_self
    exact ih (find_step hfind hev) fun hmem => hkept (List.mem_cons_of_mem _ hmem)

theorem allocatesWell_iff (hs : s.next_slot ≠ NONE) (ptr : α) : s.AllocatesWell ptr ↔ s.HasRoom := by
  have hroom : s.search s.next_slot ≠ NONE ↔ s.HasRoom := search_ne_none_iff hs
  constructor
  · exact fun h => hroom.1 h.ne_none
  · intro h
    have hne := hroom.2 h
    have hunused : s.exist (s.allocate ptr).1 = false := (search_cases s.next_slot).resolve_right hne
    exact ⟨hne, hunused, fun evs hkept => find_run (find_allocate hunused) hkept⟩

end Runs

/-- **The pool**: after any calls, the next allocation goes well exactly when a slot is free from
`next_slot` up to the last one. -/
theorem slotpool_iff (evs : List (SlotEvent α)) (ptr : α) :
    (run step ctor evs).AllocatesWell ptr ↔ (run step ctor evs).HasRoom :=
  allocatesWell_iff (next_slot_ne (show NONE + 1 ≠ NONE by decide) evs) ptr

/-! ### The slots before the counter -/

section Wrap

variable {ptr : α} {db : List (SlotId × α)} {k n : ℕ}

/-- So many slots, each released at once. -/
def cycles (ptr : α) (k n : ℕ) : List (SlotEvent α) :=
  (List.range' k n).flatMap fun i => [.allocate ptr, .release (UInt32.ofNat i)]

theorem ofNat_succ (k : ℕ) : UInt32.ofNat k + 1 = UInt32.ofNat (k + 1) :=
  (UInt32.ofNat_add k 1).symm

theorem toNat_ofNat (hlt : k < 2 ^ 32) : (UInt32.ofNat k).toNat = k := by
  rw [UInt32.toNat_ofNat']
  exact Nat.mod_eq_of_lt hlt

theorem ofNat_ne_none (hpos : 0 < k) (hlt : k < 2 ^ 32) : UInt32.ofNat k ≠ NONE := by
  intro h
  have htoNat := congrArg UInt32.toNat h
  rw [toNat_ofNat hlt] at htoNat
  exact absurd htoNat (Nat.ne_of_gt hpos)

/-- An allocation at the free slot which the counter is at. -/
theorem allocate_free (hlt : k + 1 < 2 ^ 32)
    (hfree : Omap.find (UInt32.ofNat k) db = none) :
    (Slotpool.mk (UInt32.ofNat k) db).allocate ptr = (UInt32.ofNat k,
      ⟨UInt32.ofNat (k + 1), Omap.place (fun a b => decide (a < b)) (UInt32.ofNat k) ptr db⟩) := by
  have hexist : (Slotpool.mk (UInt32.ofNat k) db).exist (UInt32.ofNat k) = false := by
    rw [exist, hfree]
    rfl
  have hne : UInt32.ofNat k + 1 ≠ NONE := by
    rw [ofNat_succ]
    exact ofNat_ne_none (Nat.succ_pos k) hlt
  rw [allocate, search_of_not_exist hexist, if_neg hne, ofNat_succ, Omap.insert_of_find hfree]

theorem run_cycles (hpos : 0 < k) (hlt : k + n < 2 ^ 32)
    (hfree : ∀ i, k ≤ i → i < k + n → Omap.find (UInt32.ofNat i) db = none) :
    run step ⟨UInt32.ofNat k, db⟩ (cycles ptr k n) = ⟨UInt32.ofNat (k + n), db⟩ := by
  induction n generalizing k with
  | zero => rfl
  | succ n ih =>
    have hk : Omap.find (UInt32.ofNat k) db = none := hfree k (Nat.le_refl k) (by omega)
    have hcons : cycles ptr k (n + 1) = .allocate ptr :: .release (UInt32.ofNat k)
        :: cycles ptr (k + 1) n := by
      rw [cycles, List.range'_succ]
      rfl
    rw [hcons, run_cons, run_cons, step, allocate_free (by omega) hk]
    show run step ⟨UInt32.ofNat (k + 1), Omap.erase (UInt32.ofNat k) (Omap.place _ _ ptr db)⟩ _ = _
    rw [Omap.erase_place hk, ih (Nat.succ_pos k) (by omega) fun i hle hi =>
      hfree i (by omega) (by omega), Nat.succ_add_eq_add_succ]

/-- The last slot is kept, and the counter comes to it again. -/
def wrapped : List (SlotEvent Unit) :=
  cycles () 1 4294967294 ++ .allocate () :: cycles () 1 4294967294

theorem run_wrapped : run step ctor wrapped
    = (⟨UInt32.ofNat 4294967295, [(UInt32.ofNat 4294967295, ())]⟩ : Slotpool Unit) := by
  have hctor : ctor = (⟨UInt32.ofNat 1, []⟩ : Slotpool Unit) := rfl
  have hfirst : run step ⟨UInt32.ofNat 1, []⟩ (cycles () 1 4294967294)
      = (⟨UInt32.ofNat 4294967295, []⟩ : Slotpool Unit) :=
    run_cycles Nat.one_pos (by omega) fun _ _ _ => rfl
  have hlast : step ⟨UInt32.ofNat 4294967295, []⟩ (.allocate ())
      = (⟨UInt32.ofNat 1, [(UInt32.ofNat 4294967295, ())]⟩ : Slotpool Unit) := by
    rw [step, allocate, search_of_not_exist rfl]
    rfl
  have hagain : run step ⟨UInt32.ofNat 1, [(UInt32.ofNat 4294967295, ())]⟩ (cycles () 1 4294967294)
      = (⟨UInt32.ofNat 4294967295, [(UInt32.ofNat 4294967295, ())]⟩ : Slotpool Unit) := by
    refine run_cycles Nat.one_pos (by omega) fun i hle hlt => ?_
    have hne : UInt32.ofNat 4294967295 ≠ UInt32.ofNat i := by
      intro h
      have htoNat := congrArg UInt32.toNat h
      rw [toNat_ofNat (by omega), toNat_ofNat (by omega)] at htoNat
      omega
    rw [Omap.find_cons, if_neg hne]
    rfl
  rw [wrapped, run_append, run_cons, hctor, hfirst, hlast, hagain]

/-- Of all the slots only the last one is in use, and none is found: the allocation returns
`NONE`. -/
theorem not_slotpool : (run step ctor wrapped).exist 1 = false
    ∧ ¬ (run step ctor wrapped).AllocatesWell () := by
  rw [run_wrapped]
  refine ⟨rfl, fun h => h.ne_none ?_⟩
  show search _ (UInt32.ofNat 4294967295) = NONE
  rw [search_of_exist rfl (ofNat_ne_none (by omega) (by omega))]
  exact search_none

end Wrap

end Slotpool

end Neoip
