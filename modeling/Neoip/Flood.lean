/-
Neoip/Flood.lean

Flooding a network.

Peers are joined by connections; each has two ends, and each end belongs to a
peer.  A message is sent by the peer which originates it on all its
connections.  A peer which receives a message with a key it has not seen hands
it up and sends it on all its connections but the one it came on; one it has
seen it drops.  A connection delivers what was sent on it in order, whenever it
likes.

The peers and the ends of the connections are any types, and there may be
several connections between two peers, or one from a peer to itself.  `born`
remembers what was originated, and by whom.

Main results, for messages whose keys are distinct: a peer hands up a message
at most once and never one of its own (`Inv.once`, `Inv.handled`); when no copy
of a message is in flight, every peer which can be reached from where it was
originated has seen it (`Inv.seen_of_reachable`) and handed it up
(`Inv.countP_handled`); and a message is delivered no more often than there are
ends (`deliveries_le`).
-/
import Neoip.Run
import Mathlib.Logic.Function.Basic
import Mathlib.Logic.Relation
import Mathlib.Data.Finset.Insert
import Mathlib.Algebra.BigOperators.Group.Finset.Basic
import Mathlib.Data.Fintype.BigOperators
import Mathlib.Algebra.Order.BigOperators.Group.List
import Mathlib.Algebra.Order.Ring.Nat

namespace Neoip

/-- The ends of the connections: the peer each of them belongs to, and the other end of its
connection. -/
structure Links (P C : Type*) where
  owner : C → P
  other : C → C
  other_other : ∀ c, other (other c) = c

/-- A connection leads from a peer to another. -/
def Links.Adj {P C : Type*} (L : Links P C) (p q : P) : Prop :=
  ∃ c, L.owner c = p ∧ L.owner (L.other c) = q

/-- A network in which messages are flooded: what each peer has seen and handed up, what is in
flight from each end to the other, and what was originated. -/
structure Flood (P C M N : Type*) where
  seen : P → Finset N
  flight : C → List M
  handled : P → List M
  born : List (P × M)

namespace Flood

set_option linter.unusedSectionVars false

variable {P C M N : Type*} [DecidableEq P] [DecidableEq C] [DecidableEq N]
  (L : Links P C) (key : M → N)

def start : Flood P C M N := ⟨fun _ => ∅, fun _ => [], fun _ => [], []⟩

/-- What is in flight after a peer has sent a message on all its ends but one. -/
def send (s : Flood P C M N) (p : P) (src : Option C) (m : M) : C → List M := fun c =>
  if L.owner c = p ∧ src ≠ some c then s.flight c ++ [m] else s.flight c

/-- A message is born, or crosses a connection. -/
inductive Act (P C M : Type*)
  | originate (p : P) (m : M)
  | deliver (c : C)

/-- A message reaches a peer at one of its ends. -/
def receive (s : Flood P C M N) (c : C) (m : M) : Flood P C M N :=
  let p := L.owner c
  if key m ∈ s.seen p then s
  else { s with
    seen := Function.update s.seen p (insert (key m) (s.seen p))
    flight := s.send L p (some c) m
    handled := Function.update s.handled p (s.handled p ++ [m]) }

def originate (s : Flood P C M N) (p : P) (m : M) : Flood P C M N where
  seen := Function.update s.seen p (insert (key m) (s.seen p))
  flight := s.send L p none m
  handled := s.handled
  born := s.born ++ [(p, m)]

def step (s : Flood P C M N) : Act P C M → Flood P C M N
  | .originate p m => s.originate L key p m
  | .deliver c =>
    match s.flight c with
    | [] => s
    | m :: rest =>
      { s with flight := Function.update s.flight c rest }.receive L key (L.other c) m

/-! ### What is sent -/

variable {L key} {s : Flood P C M N} {p : P} {src : Option C} {c : C} {m m' : M}

theorem mem_send_of_mem (h : m' ∈ s.flight c) : m' ∈ s.send L p src m c := by
  rw [send]
  split_ifs
  · exact List.mem_append_left _ h
  · exact h

theorem mem_send_self (howner : L.owner c = p) (hsrc : src ≠ some c) : m ∈ s.send L p src m c := by
  rw [send, if_pos ⟨howner, hsrc⟩]
  exact List.mem_append_right _ (List.mem_singleton.2 rfl)

theorem of_mem_send (h : m' ∈ s.send L p src m c) :
    m' ∈ s.flight c ∨ (m' = m ∧ L.owner c = p) := by
  rw [send] at h
  split_ifs at h with hc
  · exact (List.mem_append.1 h).imp_right fun h => ⟨List.mem_singleton.1 h, hc.1⟩
  · exact .inl h

variable (L p src) in
/-- Taking a message off a connection and sending commute. -/
theorem send_update {rest : List M} (hflight : s.flight c = m :: rest) :
    ∃ rest', s.send L p src m' c = m :: rest' ∧
      { s with flight := Function.update s.flight c rest }.send L p src m'
        = Function.update (s.send L p src m') c rest' := by
  refine ⟨if L.owner c = p ∧ src ≠ some c then rest ++ [m'] else rest, ?_, ?_⟩
  · rw [send, hflight]
    split_ifs <;> rfl
  · funext c'
    simp only [send, Function.update_apply]
    by_cases hc : c' = c
    · subst hc
      simp
    · simp [hc]

theorem mem_seen_update {n : N} {q : P} : n ∈ Function.update s.seen p (insert (key m) (s.seen p)) q
    ↔ n ∈ s.seen q ∨ (q = p ∧ n = key m) := by
  rw [Function.update_apply]
  split_ifs with hq
  · rw [hq, Finset.mem_insert, or_comm]
    simp
  · simp [hq]

theorem mem_handled_update {q : P} : m' ∈ Function.update s.handled p (s.handled p ++ [m]) q
    ↔ m' ∈ s.handled q ∨ (q = p ∧ m' = m) := by
  rw [Function.update_apply]
  split_ifs with hq
  · rw [hq, List.mem_append, List.mem_singleton]
    simp
  · simp [hq]

/-! ### The invariant -/

variable (L key) in
/-- What holds of a flooded network when the keys of the messages are distinct. -/
structure Inv (s : Flood P C M N) : Prop where
  keys : (s.born.map fun b => key b.2).Nodup
  /-- What is in flight was originated, and whoever sent it has seen it. -/
  flight : ∀ c, ∀ m ∈ s.flight c, (∃ o, (o, m) ∈ s.born) ∧ key m ∈ s.seen (L.owner c)
  /-- What was handed up was originated by another peer. -/
  handled : ∀ p, ∀ m ∈ s.handled p, ∃ o, o ≠ p ∧ (o, m) ∈ s.born
  seen_iff : ∀ p n, n ∈ s.seen p ↔
    (∃ m, (p, m) ∈ s.born ∧ key m = n) ∨ ∃ m ∈ s.handled p, key m = n
  once : ∀ p, ((s.handled p).map key).Nodup
  /-- A message which was seen at an end was seen at the other one, or is on its way there. -/
  covered : ∀ o m, (o, m) ∈ s.born → ∀ c, key m ∈ s.seen (L.owner c) →
    key m ∈ s.seen (L.owner (L.other c)) ∨ m ∈ s.flight c

variable (L key) in
theorem Inv.start : Inv L key (start : Flood P C M N) where
  keys := List.nodup_nil
  flight := fun _ _ h => nomatch h
  handled := fun _ _ h => nomatch h
  seen_iff := by simp [Flood.start]
  once := fun _ => List.nodup_nil
  covered := fun _ _ h => nomatch h

/-- A key belongs to one message, and to one originator. -/
theorem Inv.born_inj (h : Inv L key s) {o o' : P} (hm : (o, m) ∈ s.born) (hm' : (o', m') ∈ s.born)
    (hkey : key m = key m') : o = o' ∧ m = m' :=
  Prod.mk.inj (List.inj_on_of_nodup_map h.keys hm hm' hkey)

theorem Inv.born_of_seen (h : Inv L key s) {n : N} (hn : n ∈ s.seen p) :
    ∃ o m, (o, m) ∈ s.born ∧ key m = n := by
  rcases (h.seen_iff p n).1 hn with ⟨m, hm, hkey⟩ | ⟨m, hm, hkey⟩
  · exact ⟨p, m, hm, hkey⟩
  · obtain ⟨o, -, hborn⟩ := h.handled p m hm
    exact ⟨o, m, hborn, hkey⟩

/-- A message with a new key is originated. -/
theorem Inv.originate (h : Inv L key s) (p : P) (hfresh : ∀ b ∈ s.born, key b.2 ≠ key m) :
    Inv L key (s.originate L key p m) := by
  have hborn {o : P} {m' : M} : (o, m') ∈ (s.originate L key p m).born ↔
      (o, m') ∈ s.born ∨ (o = p ∧ m' = m) := by
    simp [Flood.originate]
  have hunseen (q : P) : key m ∉ s.seen q := fun hseen => by
    obtain ⟨o, m', hm', hkey⟩ := h.born_of_seen hseen
    exact hfresh _ hm' hkey
  constructor
  · show ((s.born ++ [(p, m)]).map fun b => key b.2).Nodup
    rw [List.map_append, List.nodup_append]
    refine ⟨h.keys, List.nodup_singleton _, ?_⟩
    rintro n hn _ hn' rfl
    obtain ⟨b, hb, rfl⟩ := List.mem_map.1 hn
    exact hfresh b hb (List.mem_singleton.1 hn')
  · intro c m' hm'
    rcases of_mem_send hm' with hm' | ⟨rfl, howner⟩
    · obtain ⟨⟨o, ho⟩, hseen⟩ := h.flight c m' hm'
      exact ⟨⟨o, hborn.2 (.inl ho)⟩, mem_seen_update.2 (.inl hseen)⟩
    · exact ⟨⟨p, hborn.2 (.inr ⟨rfl, rfl⟩)⟩, mem_seen_update.2 (.inr ⟨howner, rfl⟩)⟩
  · intro q m' hm'
    obtain ⟨o, hne, ho⟩ := h.handled q m' hm'
    exact ⟨o, hne, hborn.2 (.inl ho)⟩
  · intro q n
    show n ∈ Function.update s.seen p _ q ↔ _
    rw [mem_seen_update, h.seen_iff]
    constructor
    · rintro ((⟨m', hm', hkey⟩ | hhandled) | ⟨rfl, rfl⟩)
      · exact .inl ⟨m', hborn.2 (.inl hm'), hkey⟩
      · exact .inr hhandled
      · exact .inl ⟨m, hborn.2 (.inr ⟨rfl, rfl⟩), rfl⟩
    · rintro (⟨m', hm', hkey⟩ | hhandled)
      · rcases hborn.1 hm' with hm' | ⟨rfl, rfl⟩
        · exact .inl (.inl ⟨m', hm', hkey⟩)
        · exact .inr ⟨rfl, hkey.symm⟩
      · exact .inl (.inr hhandled)
  · exact h.once
  · intro o m' hm' c hseen
    rcases hborn.1 hm' with hm' | ⟨rfl, rfl⟩
    · rcases mem_seen_update.1 hseen with hseen | ⟨-, hkey⟩
      · exact (h.covered o m' hm' c hseen).imp (fun hs => mem_seen_update.2 (.inl hs))
          mem_send_of_mem
      · exact absurd hkey (hfresh _ hm')
    · -- nobody has seen the message but its originator, which has just sent it
      rcases mem_seen_update.1 hseen with hseen | ⟨howner, -⟩
      · exact absurd hseen (hunseen _)
      · exact .inr (mem_send_self howner nofun)

/-- A message which is taken off a connection where it was seen already is not missed. -/
theorem Inv.drop (h : Inv L key s) {rest : List M} (hflight : s.flight c = m :: rest)
    (hseen : key m ∈ s.seen (L.owner (L.other c))) :
    Inv L key { s with flight := Function.update s.flight c rest } := by
  have hless {c' : C} {m' : M} (hm' : m' ∈ Function.update s.flight c rest c') :
      m' ∈ s.flight c' := by
    rw [Function.update_apply] at hm'
    split_ifs at hm' with hc
    · rw [hc, hflight]
      exact List.mem_cons_of_mem _ hm'
    · exact hm'
  refine ⟨h.keys, fun c' m' hm' => h.flight c' m' (hless hm'), h.handled, h.seen_iff, h.once, ?_⟩
  intro o m' hm' c' hseen'
  rcases h.covered o m' hm' c' hseen' with hs | hfl
  · exact .inl hs
  · by_cases hc : c' = c
    · rw [hc, hflight] at hfl
      rcases List.mem_cons.1 hfl with rfl | hrest
      · left
        rw [hc]
        exact hseen
      · right
        rw [hc]
        show m' ∈ Function.update s.flight c rest c
        rwa [Function.update_self]
    · right
      show m' ∈ Function.update s.flight c rest c'
      rwa [Function.update_of_ne hc]

/-- A message reaches a peer which has not seen it, from one which has. -/
theorem Inv.receive (h : Inv L key s) {o : P} (hm : (o, m) ∈ s.born)
    (hsrc : key m ∈ s.seen (L.owner (L.other c))) (hunseen : key m ∉ s.seen (L.owner c)) :
    Inv L key (s.receive L key c m) := by
  rw [Flood.receive, if_neg hunseen]
  have hsame {o' : P} {m' : M} (hm' : (o', m') ∈ s.born) (hkey : key m' = key m) : m' = m :=
    (h.born_inj hm' hm hkey).2
  have hother : o ≠ L.owner c := by
    rintro rfl
    exact hunseen ((h.seen_iff _ _).2 (.inl ⟨m, hm, rfl⟩))
  constructor
  · exact h.keys
  · intro c' m' hm'
    rcases of_mem_send hm' with hm' | ⟨rfl, howner⟩
    · obtain ⟨ho, hseen⟩ := h.flight c' m' hm'
      exact ⟨ho, mem_seen_update.2 (.inl hseen)⟩
    · exact ⟨⟨o, hm⟩, mem_seen_update.2 (.inr ⟨howner, rfl⟩)⟩
  · intro q m' hm'
    rcases mem_handled_update.1 hm' with hm' | ⟨rfl, rfl⟩
    · exact h.handled q m' hm'
    · exact ⟨o, hother, hm⟩
  · intro q n
    show n ∈ Function.update s.seen _ _ q ↔ _ ∨ ∃ m' ∈ Function.update s.handled _ _ q, _
    simp only [mem_seen_update, mem_handled_update, h.seen_iff]
    constructor
    · rintro ((hborn | ⟨m', hm', hkey⟩) | ⟨hq, hn⟩)
      · exact .inl hborn
      · exact .inr ⟨m', .inl hm', hkey⟩
      · exact .inr ⟨m, .inr ⟨hq, rfl⟩, hn.symm⟩
    · rintro (hborn | ⟨m', hm' | ⟨hq, rfl⟩, hkey⟩)
      · exact .inl (.inl hborn)
      · exact .inl (.inr ⟨m', hm', hkey⟩)
      · exact .inr ⟨hq, hkey.symm⟩
  · intro q
    show ((Function.update s.handled _ _ q).map key).Nodup
    rw [Function.update_apply]
    split_ifs with hq
    · rw [List.map_append, List.nodup_append]
      refine ⟨h.once _, List.nodup_singleton _, ?_⟩
      rintro n hn _ hn' rfl
      obtain ⟨m', hm', hkey⟩ := List.mem_map.1 hn
      obtain rfl := List.mem_singleton.1 hn'
      exact hunseen ((h.seen_iff _ _).2 (.inr ⟨m', hm', hkey⟩))
    · exact h.once q
  · intro o' m' hm' c' hseen'
    show key m' ∈ Function.update s.seen _ _ _ ∨ m' ∈ s.send L _ _ m c'
    rw [mem_seen_update]
    rcases mem_seen_update.1 hseen' with hseen' | ⟨howner, hkey⟩
    · exact (h.covered o' m' hm' c' hseen').imp .inl mem_send_of_mem
    · -- the peer sends the message on all its ends but the one it came on
      obtain rfl := hsame hm' hkey
      by_cases hc : c = c'
      · subst hc
        exact .inl (.inl hsrc)
      · exact .inr (mem_send_self howner fun he => hc (Option.some.inj he))

theorem Inv.deliver (h : Inv L key s) (c : C) : Inv L key (s.step L key (.deliver c)) := by
  rw [step]
  cases hflight : s.flight c with
  | nil => exact h
  | cons m rest =>
    dsimp only
    have hmem : m ∈ s.flight c := by
      rw [hflight]
      exact List.mem_cons_self
    obtain ⟨⟨o, ho⟩, hsrc⟩ := h.flight c m hmem
    by_cases hseen : key m ∈ s.seen (L.owner (L.other c))
    · rw [Flood.receive, if_pos hseen]
      exact h.drop hflight hseen
    · -- first it is seen, then it is taken off the connection
      have hrec := h.receive (c := L.other c) ho (by rwa [L.other_other]) hseen
      obtain ⟨rest', hrest', hsend⟩ := send_update L (L.owner (L.other c))
        (some (L.other c)) hflight
      rw [Flood.receive, if_neg hseen] at hrec ⊢
      dsimp only
      rw [hsend]
      exact hrec.drop hrest' (mem_seen_update.2 (.inr ⟨rfl, rfl⟩))

theorem Inv.step (h : Inv L key s) (a : Act P C M)
    (hfresh : ∀ p m, a = .originate p m → ∀ b ∈ s.born, key b.2 ≠ key m) :
    Inv L key (s.step L key a) := by
  cases a with
  | originate p m => exact h.originate p (hfresh p m rfl)
  | deliver c => exact h.deliver c

/-! ### Runs -/

/-- The messages which are originated in a run, and by whom. -/
def births (acts : List (Act P C M)) : List (P × M) :=
  acts.filterMap fun
    | .originate p m => some (p, m)
    | .deliver _ => none

@[simp] theorem births_originate (p : P) (m : M) (acts : List (Act P C M)) :
    births (.originate p m :: acts) = (p, m) :: births acts := rfl

@[simp] theorem births_deliver (c : C) (acts : List (Act P C M)) :
    births (.deliver c :: acts) = births acts := rfl

theorem born_step (s : Flood P C M N) (a : Act P C M) :
    (s.step L key a).born = s.born ++ births [a] := by
  cases a with
  | originate p m => rfl
  | deliver c =>
    rw [step]
    cases s.flight c with
    | nil => exact (List.append_nil _).symm
    | cons m rest =>
      dsimp only [receive]
      split_ifs <;> exact (List.append_nil _).symm

theorem births_cons (a : Act P C M) (acts : List (Act P C M)) :
    births (a :: acts) = births [a] ++ births acts := by
  cases a <;> rfl

variable (L key) in
theorem born_run (s : Flood P C M N) (acts : List (Act P C M)) :
    (run (step L key) s acts).born = s.born ++ births acts := by
  induction acts generalizing s with
  | nil => exact (List.append_nil _).symm
  | cons a acts ih => rw [run_cons, ih, born_step, births_cons a acts, List.append_assoc]

/-- The keys of a run are distinct, and none of them was there before. -/
def Distinct (key : M → N) (s : Flood P C M N) (acts : List (Act P C M)) : Prop :=
  ((s.born ++ births acts).map fun b => key b.2).Nodup

theorem Distinct.tail {a : Act P C M} {acts : List (Act P C M)}
    (h : Distinct key s (a :: acts)) : Distinct key (s.step L key a) acts := by
  rw [Distinct, born_step, List.append_assoc, ← births_cons a acts]
  exact h

theorem Distinct.fresh {p : P} {acts : List (Act P C M)}
    (h : Distinct key s (.originate p m :: acts)) : ∀ b ∈ s.born, key b.2 ≠ key m := by
  rw [Distinct, List.map_append, List.nodup_append] at h
  exact fun b hb => h.2.2 _ (List.mem_map_of_mem hb) _ (List.mem_map_of_mem List.mem_cons_self)

theorem Inv.step_of_distinct {a : Act P C M} {acts : List (Act P C M)} (h : Inv L key s)
    (hdistinct : Distinct key s (a :: acts)) : Inv L key (s.step L key a) := by
  apply h.step a
  rintro p m rfl
  exact hdistinct.fresh

theorem Inv.run {acts : List (Act P C M)} (h : Inv L key s) (hdistinct : Distinct key s acts) :
    Inv L key (run (Flood.step L key) s acts) := by
  induction acts generalizing s with
  | nil => exact h
  | cons a acts ih => exact ih (h.step_of_distinct hdistinct) hdistinct.tail

/-! ### Who has handed a message up -/

/-- **A message which is not in flight has been everywhere.** -/
theorem Inv.seen_of_reachable (h : Inv L key s) {o : P} (hm : (o, m) ∈ s.born)
    (hquiet : ∀ c, m ∉ s.flight c) (hreach : Relation.ReflTransGen L.Adj o p) :
    key m ∈ s.seen p := by
  induction hreach with
  | refl => exact (h.seen_iff o _).2 (.inl ⟨m, hm, rfl⟩)
  | tail _ hadj ih =>
    obtain ⟨c, hc, rfl⟩ := hadj
    rw [← hc] at ih
    exact (h.covered o m hm c ih).resolve_right (hquiet c)

/-- Where a message was seen which is not one's own, it was handed up. -/
theorem Inv.mem_handled (h : Inv L key s) {o : P} (hm : (o, m) ∈ s.born) (hne : p ≠ o)
    (hseen : key m ∈ s.seen p) : m ∈ s.handled p := by
  rcases (h.seen_iff p _).1 hseen with ⟨m', hm', hkey⟩ | ⟨m', hm', hkey⟩
  · exact absurd (h.born_inj hm' hm hkey).1 hne
  · obtain ⟨o', -, ho'⟩ := h.handled p m' hm'
    obtain rfl := (h.born_inj ho' hm hkey).2
    exact hm'

theorem Inv.not_mem_handled (h : Inv L key s) (hm : (p, m) ∈ s.born) (hm' : m' ∈ s.handled p) :
    key m' ≠ key m := fun hkey => by
  obtain ⟨o, hne, ho⟩ := h.handled p m' hm'
  exact hne (h.born_inj ho hm hkey).1

/-- A peer hands a message up once, or not at all. -/
theorem Inv.countP_handled_le (h : Inv L key s) (p : P) (m : M) :
    (s.handled p).countP (fun m' => key m' = key m) ≤ 1 := by
  have hcount : (s.handled p).countP (fun m' => key m' = key m)
      = ((s.handled p).map key).count (key m) := by
    rw [List.count, List.countP_map]
    rfl
  rw [hcount]
  exact List.nodup_iff_count_le_one.1 (h.once p) _

/-- **Flooding reaches everybody, once**: when a message is not in flight, each peer which can
be reached from where it was originated, and is not the one there, has handed it up once. -/
theorem Inv.countP_handled (h : Inv L key s) {o : P} (hm : (o, m) ∈ s.born)
    (hquiet : ∀ c, m ∉ s.flight c) (hreach : Relation.ReflTransGen L.Adj o p) (hne : p ≠ o) :
    (s.handled p).countP (fun m' => key m' = key m) = 1 := by
  have hmem := h.mem_handled hm hne (h.seen_of_reachable hm hquiet hreach)
  have hpos : 0 < (s.handled p).countP (fun m' => key m' = key m) :=
    List.countP_pos_iff.2 ⟨m, hmem, by simp⟩
  have := h.countP_handled_le p m
  omega

/-! ### Flooding ends -/

section Ends

variable [Fintype C]

/-- The ends at which a key has not been seen. -/
def unseen (L : Links P C) (s : Flood P C M N) (n : N) : Finset C :=
  Finset.univ.filter fun c => n ∉ s.seen (L.owner c)

/-- What is in flight, and what may still be sent. -/
def remaining (L : Links P C) (key : M → N) (s : Flood P C M N) : ℕ :=
  ∑ c, (s.flight c).length + (s.born.map fun b => (unseen L s (key b.2)).card).sum

/-- A delivery which finds a message in flight. -/
def delivers (s : Flood P C M N) : Act P C M → Bool
  | .deliver c => !(s.flight c).isEmpty
  | .originate _ _ => false

/-- How many deliveries of a run find a message in flight. -/
def deliveries (L : Links P C) (key : M → N) : Flood P C M N → List (Act P C M) → ℕ
  | _, [] => 0
  | s, a :: acts => (if s.delivers a then 1 else 0) + deliveries L key (s.step L key a) acts

theorem sum_length_send (s : Flood P C M N) (p : P) (src : Option C) (m : M) :
    ∑ c, (s.send L p src m c).length = ∑ c, (s.flight c).length
      + (Finset.univ.filter fun c => L.owner c = p ∧ src ≠ some c).card := by
  have hlen (c : C) : (s.send L p src m c).length
      = (s.flight c).length + if L.owner c = p ∧ src ≠ some c then 1 else 0 := by
    rw [send]
    split_ifs <;> simp
  simp only [hlen, Finset.sum_add_distrib, Finset.card_filter]

theorem unseen_mono {s' : Flood P C M N} (h : ∀ p n, n ∈ s.seen p → n ∈ s'.seen p) (n : N) :
    (unseen L s' n).card ≤ (unseen L s n).card := by
  apply Finset.card_le_card
  intro c hc
  simp only [unseen, Finset.mem_filter, Finset.mem_univ, true_and] at hc ⊢
  exact fun hseen => hc (h _ _ hseen)

/-- The ends of a peer which has just seen a message are not among those any more at which it
has not been seen. -/
theorem card_unseen_update (s' : Flood P C M N) (hunseen : key m ∉ s.seen p)
    (hseen : s'.seen = Function.update s.seen p (insert (key m) (s.seen p))) :
    (unseen L s' (key m)).card + (Finset.univ.filter fun c => L.owner c = p).card
      = (unseen L s (key m)).card := by
  rw [← Finset.card_union_of_disjoint]
  · congr 1
    ext c
    simp only [unseen, Finset.mem_union, Finset.mem_filter, Finset.mem_univ, true_and, hseen,
      mem_seen_update]
    by_cases hc : L.owner c = p
    · simp [hc, hunseen]
    · simp [hc]
  · rw [Finset.disjoint_left]
    intro c hc hc'
    simp only [unseen, Finset.mem_filter, Finset.mem_univ, true_and, hseen, mem_seen_update]
      at hc hc'
    exact hc (.inr ⟨hc', trivial⟩)

theorem sum_map_add_le {α : Type*} {f g : α → ℕ} {k : ℕ} {a : α} :
    ∀ {l : List α}, (∀ b, f b ≤ g b) → a ∈ l → f a + k ≤ g a →
      (l.map f).sum + k ≤ (l.map g).sum
  | b :: l, hle, ha, hk => by
    rw [List.map_cons, List.map_cons, List.sum_cons, List.sum_cons]
    rcases List.mem_cons.1 ha with rfl | ha
    · have hrest : (l.map f).sum ≤ (l.map g).sum := List.sum_le_sum fun b _ => hle b
      omega
    · have := sum_map_add_le hle ha hk
      have := hle b
      omega

theorem remaining_originate (h : Inv L key s) (p : P) (hfresh : ∀ b ∈ s.born, key b.2 ≠ key m) :
    remaining L key (s.originate L key p m) ≤ remaining L key s + Fintype.card C := by
  have hmono (n : N) : (unseen L (s.originate L key p m) n).card ≤ (unseen L s n).card :=
    unseen_mono (fun q n hn => mem_seen_update.2 (.inl hn)) n
  have hunseen : key m ∉ s.seen p := fun hseen => by
    obtain ⟨o, m', hm', hkey⟩ := h.born_of_seen hseen
    exact hfresh _ hm' hkey
  have hcard := card_unseen_update (L := L) (s.originate L key p m) hunseen rfl
  have huniv : (unseen L s (key m)).card ≤ Fintype.card C := Finset.card_le_univ _
  have hsum : (s.born.map fun b => (unseen L (s.originate L key p m) (key b.2)).card).sum
      ≤ (s.born.map fun b => (unseen L s (key b.2)).card).sum :=
    List.sum_le_sum fun b _ => hmono _
  have hsent : (Finset.univ.filter fun c => L.owner c = p ∧ (none : Option C) ≠ some c).card
      = (Finset.univ.filter fun c => L.owner c = p).card := by simp
  show ∑ c, (s.send L p none m c).length
    + ((s.born ++ [(p, m)]).map fun b => (unseen L (s.originate L key p m) (key b.2)).card).sum ≤ _
  rw [sum_length_send, hsent, List.map_append, List.sum_append, remaining]
  simp only [List.map_cons, List.map_nil, List.sum_cons, List.sum_nil]
  omega

/-- Taking a message off a connection. -/
theorem sum_length_pop {rest : List M} (hflight : s.flight c = m :: rest) :
    ∑ c', (Function.update s.flight c rest c').length + 1 = ∑ c', (s.flight c').length := by
  rw [← Finset.add_sum_erase _ _ (Finset.mem_univ c),
    ← Finset.add_sum_erase _ (fun c' => (s.flight c').length) (Finset.mem_univ c),
    Function.update_self, hflight, List.length_cons]
  have hsame : ∑ c' ∈ Finset.univ.erase c, (Function.update s.flight c rest c').length
      = ∑ c' ∈ Finset.univ.erase c, (s.flight c').length := by
    apply Finset.sum_congr rfl
    intro c' hc'
    rw [Function.update_of_ne (Finset.ne_of_mem_erase hc')]
  omega

theorem remaining_deliver (h : Inv L key s) (hflight : s.flight c ≠ []) :
    remaining L key (s.step L key (.deliver c)) + 1 ≤ remaining L key s := by
  obtain ⟨m, rest, hcons⟩ := List.exists_cons_of_ne_nil hflight
  have hpop := sum_length_pop hcons
  have hmem : m ∈ s.flight c := by
    rw [hcons]
    exact List.mem_cons_self
  obtain ⟨⟨o, ho⟩, -⟩ := h.flight c m hmem
  rw [step, hcons]
  dsimp only
  by_cases hseen : key m ∈ s.seen (L.owner (L.other c))
  · rw [receive, if_pos hseen, remaining, remaining]
    show ∑ c', (Function.update s.flight c rest c').length
      + (s.born.map fun b => (unseen L s (key b.2)).card).sum + 1 ≤ _
    omega
  · rw [receive, if_neg hseen, remaining, remaining]
    have hcard := card_unseen_update (L := L) (s := s)
      (({ s with flight := Function.update s.flight c rest } : Flood P C M N).receive L key
        (L.other c) m) hseen (by rw [receive, if_neg hseen])
    rw [receive, if_neg hseen] at hcard
    have hsum := sum_map_add_le (k := (Finset.univ.filter fun c' =>
      L.owner c' = L.owner (L.other c)).card) (fun b : P × M => unseen_mono (L := L) (s := s)
        (fun q n hn => mem_seen_update.2 (.inl hn)) (key b.2)) ho hcard.le
    have hsent : (Finset.univ.filter fun c' => L.owner c' = L.owner (L.other c)
        ∧ some (L.other c) ≠ some c').card
        ≤ (Finset.univ.filter fun c' => L.owner c' = L.owner (L.other c)).card :=
      Finset.card_le_card fun c' hc' => by
        simp only [Finset.mem_filter, Finset.mem_univ, true_and] at hc' ⊢
        exact hc'.1
    dsimp only at hsum ⊢
    rw [sum_length_send]
    dsimp only
    omega

/-- **Flooding ends**: a message is delivered at most once for each end of a connection. -/
theorem deliveries_le {acts : List (Act P C M)} (h : Inv L key s)
    (hdistinct : Distinct key s acts) :
    deliveries L key s acts + remaining L key (run (step L key) s acts)
      ≤ remaining L key s + Fintype.card C * (births acts).length := by
  induction acts generalizing s with
  | nil =>
    rw [deliveries, run_nil]
    omega
  | cons a acts ih =>
    have hrest := ih (h.step_of_distinct hdistinct) hdistinct.tail
    rw [deliveries, run_cons]
    cases a with
    | originate p m =>
      have hstep := remaining_originate h p hdistinct.fresh
      rw [births_originate, List.length_cons, Nat.mul_succ]
      have hnone : s.delivers (.originate p m : Act P C M) = false := rfl
      rw [hnone, if_neg Bool.false_ne_true]
      have hsame : s.step L key (.originate p m) = s.originate L key p m := rfl
      rw [hsame] at hrest ⊢
      omega
    | deliver c =>
      rw [births_deliver]
      by_cases hflight : s.flight c = []
      · have hnone : s.delivers (.deliver c : Act P C M) = false := by simp [delivers, hflight]
        have hsame : s.step L key (.deliver c) = s := by simp [step, hflight]
        rw [hnone, if_neg Bool.false_ne_true]
        rw [hsame] at hrest ⊢
        omega
      · have hsome : s.delivers (.deliver c : Act P C M) = true := by
          simp [delivers, hflight]
        have hstep := remaining_deliver h hflight
        rw [hsome, if_pos rfl]
        omega

end Ends

end Flood

end Neoip
