/-
Neoip/KadReplicate.lean

The replication of records to a node which appears: `notify_new_node`.

The records are in the order of their distances from the local peer, and those
from half of the distance of the new node on are sent to it.  A record is
nearer to the new node exactly when its distance has the highest bit which the
distance of the node has (`closer_iff`).  All of these are at that half or
beyond it, but not all which are there are nearer.

Main result: `replicates_iff`.
-/
import Neoip.KadDb

namespace Neoip

namespace XorDist

variable {d n : ℕ}

theorem xor_one_lt_iff : n ^^^ 1 < n ↔ n % 2 = 1 := by
  rcases Nat.even_or_odd n with heven | hodd
  · rw [Nat.xor_one_of_even heven, Nat.even_iff.1 heven]
    simp
  · rw [Nat.xor_one_of_odd hodd, Nat.odd_iff.1 hodd]
    have := hodd.pos
    omega

/-- A number gets smaller with another one exactly when it has its highest bit. -/
theorem xor_lt_self_iff (hn : n ≠ 0) : d ^^^ n < d ↔ d.testBit n.log2 = true := by
  have hone : n >>> n.log2 = 1 := by
    obtain ⟨hle, hlt⟩ := (Nat.log2_eq_iff hn).1 rfl
    rw [Nat.pow_succ'] at hlt
    rw [Nat.shiftRight_eq_div_pow, Nat.div_eq_iff (Nat.two_pow_pos _)]
    omega
  have hxor : (d ^^^ n) >>> n.log2 = d >>> n.log2 ^^^ 1 := by
    rw [Nat.shiftRight_xor_distrib, hone]
  have hne : (d ^^^ n) >>> n.log2 ≠ d >>> n.log2 := by
    rw [hxor]
    intro h
    rw [← Nat.xor_zero (d >>> n.log2), Nat.xor_assoc] at h
    exact absurd (Nat.xor_right_inj.1 h) (by decide)
  rw [lt_iff_shiftRight_lt hne, hxor, xor_one_lt_iff, Nat.testBit_eq_decide_div_mod_eq,
    Nat.shiftRight_eq_div_pow, decide_eq_true_iff]

/-- What has the highest bit of another number is no less than half of it. -/
theorem half_le_of_testBit (hn : n ≠ 0) (h : d.testBit n.log2 = true) : n / 2 ≤ d := by
  obtain ⟨-, hlt⟩ := (Nat.log2_eq_iff hn).1 rfl
  have hle := Nat.ge_two_pow_of_testBit h
  rw [Nat.pow_succ'] at hlt
  omega

end XorDist

namespace KadDb

variable (cfg : KadDbCfg) (peerid : KadId)

def nodeDist : KadId := cfg.local_peerid ^^^ peerid

/-- `notify_new_node`: the arguments of the calls of `replicate_in`, one for each record from
the `lower_bound` of the middle distance on. -/
def notifyNewNode (s : KadDb) : List KadRecdups :=
  let mid_dist := (nodeDist cfg peerid).shiftRight 1
  (s.distid_db.dropWhile fun e => e.1 < mid_dist).map fun e =>
    KadRecdups.empty.update (s.getKadRec cfg e.2)

/-- The key of the record is nearer to the node than to the local peer. -/
def Closer (rec : DbRec) : Prop := rec.keyid ^^^ peerid < rec.keyid ^^^ cfg.local_peerid

instance (rec : DbRec) : Decidable (Closer cfg peerid rec) := inferInstanceAs (Decidable (_ < _))

/-- Exactly the nearer records are sent. -/
def Replicates (s : KadDb) : Prop :=
  notifyNewNode cfg peerid s = (s.distid_db.filter fun e => Closer cfg peerid e.2).map fun e =>
    KadRecdups.empty.update (s.getKadRec cfg e.2)

/-- A record whose distance is no less than half of the node's has the highest bit of that. -/
def Separated (s : KadDb) : Prop :=
  ∀ e ∈ s.distid_db, nodeDist cfg peerid >>> 1 ≤ getDistid cfg e.2.keyid →
    nodeDist cfg peerid ≠ 0
      ∧ (getDistid cfg e.2.keyid).getLsbD (nodeDist cfg peerid).bitGetHighestSet = true

instance (s : KadDb) : Decidable (Separated cfg peerid s) :=
  inferInstanceAs (Decidable (∀ e ∈ s.distid_db, _))

variable {cfg peerid} {s : KadDb} {rec : DbRec}

theorem closer_iff : Closer cfg peerid rec ↔ nodeDist cfg peerid ≠ 0
    ∧ (getDistid cfg rec.keyid).getLsbD (nodeDist cfg peerid).bitGetHighestSet = true := by
  have hdist : rec.keyid ^^^ cfg.local_peerid = getDistid cfg rec.keyid := BitVec.xor_comm _ _
  have hnode : rec.keyid ^^^ peerid = getDistid cfg rec.keyid ^^^ nodeDist cfg peerid := by
    rw [getDistid, nodeDist, BitVec.xor_comm cfg.local_peerid rec.keyid, BitVec.xor_assoc,
      ← BitVec.xor_assoc cfg.local_peerid, BitVec.xor_self, BitVec.zero_xor]
  rw [Closer, hdist, hnode, GenId.bitGetHighestSet_eq]
  by_cases hzero : nodeDist cfg peerid = 0
  · rw [hzero]
    simp
  · have hne : (nodeDist cfg peerid).toNat ≠ 0 := fun h => hzero (BitVec.eq_of_toNat_eq h)
    rw [BitVec.lt_def, BitVec.toNat_xor, XorDist.xor_lt_self_iff hne, BitVec.testBit_toNat,
      and_iff_right hzero]

theorem half_le_of_closer (h : Closer cfg peerid rec) :
    nodeDist cfg peerid >>> 1 ≤ getDistid cfg rec.keyid := by
  obtain ⟨hzero, hbit⟩ := closer_iff.1 h
  have hne : (nodeDist cfg peerid).toNat ≠ 0 := fun h => hzero (BitVec.eq_of_toNat_eq h)
  rw [GenId.bitGetHighestSet_eq, ← BitVec.testBit_toNat] at hbit
  rw [BitVec.le_def, BitVec.toNat_ushiftRight, Nat.shiftRight_eq_div_pow]
  exact XorDist.half_le_of_testBit hne hbit

/-- In a sorted list what is left from the lower bound on is what is not below it. -/
theorem dropWhile_lt_eq_filter {α : Type} {l : List (KadId × α)} (k : KadId)
    (h : l.Pairwise fun a b => a.1 ≤ b.1) :
    l.dropWhile (fun e => e.1 < k) = l.filter fun e => k ≤ e.1 := by
  induction l with
  | nil => rfl
  | cons e l ih =>
    obtain ⟨hhead, htail⟩ := List.pairwise_cons.1 h
    rw [List.dropWhile_cons, List.filter_cons]
    by_cases hlt : e.1 < k
    · rw [if_pos (decide_eq_true hlt), if_neg, ih htail]
      rw [decide_eq_true_iff]
      exact BitVec.not_le.2 hlt
    · have hle : k ≤ e.1 := BitVec.not_lt.1 hlt
      rw [if_neg (by rwa [decide_eq_true_iff]), if_pos (decide_eq_true hle),
        List.filter_eq_self.2]
      intro e' he'
      exact decide_eq_true (BitVec.le_trans hle (hhead e' he'))

theorem Linked.notifyNewNode_eq (h : Linked cfg s) (peerid : KadId) :
    notifyNewNode cfg peerid s
      = (s.distid_db.filter fun e => nodeDist cfg peerid >>> 1 ≤ getDistid cfg e.2.keyid).map
        fun e => KadRecdups.empty.update (s.getKadRec cfg e.2) := by
  rw [notifyNewNode, GenId.shiftRight_eq, dropWhile_lt_eq_filter _ h.sorted]
  congr 1
  apply List.filter_congr
  intro e he
  rw [h.distid e he]

/-- What is sent has all the nearer records in it, so that it is right when it has no other. -/
theorem Linked.replicates_iff_separated (h : Linked cfg s) (peerid : KadId) :
    Replicates cfg peerid s ↔ Separated cfg peerid s := by
  set far : KadId × DbRec → Bool := fun e => nodeDist cfg peerid >>> 1 ≤ getDistid cfg e.2.keyid
    with hfar
  set near : KadId × DbRec → Bool := fun e => Closer cfg peerid e.2 with hnear
  have hsub : (s.distid_db.filter near).Sublist (s.distid_db.filter far) := by
    apply List.monotone_filter_right
    intro e he
    exact decide_eq_true (half_le_of_closer (of_decide_eq_true he))
  have hreplicates : Replicates cfg peerid s
      ↔ s.distid_db.filter far = s.distid_db.filter near := by
    rw [Replicates, h.notifyNewNode_eq peerid]
    constructor
    · intro heq
      have hlen := congrArg List.length heq
      rw [List.length_map, List.length_map] at hlen
      exact (hsub.eq_of_length hlen.symm).symm
    · intro heq
      rw [heq]
  rw [hreplicates]
  constructor
  · intro heq e he hle
    have hmem : e ∈ s.distid_db.filter far := List.mem_filter.2 ⟨he, decide_eq_true hle⟩
    rw [heq] at hmem
    exact closer_iff.1 (of_decide_eq_true (List.mem_filter.1 hmem).2)
  · intro hsep
    apply List.filter_congr
    intro e he
    rw [hfar, hnear]
    dsimp only
    apply decide_eq_decide.2
    exact ⟨fun hle => closer_iff.2 (hsep e he hle), half_le_of_closer⟩

/-- **The replication to a new node**: exactly the records which are nearer to it are sent, in
any state of a database, when no other record is at half of its distance or beyond. -/
theorem replicates_iff (cfg : KadDbCfg) (evs : List KadDbEv) (peerid : KadId) :
    Replicates cfg peerid (run (step cfg) start evs)
      ↔ Separated cfg peerid (run (step cfg) start evs) :=
  (linked_run evs).replicates_iff_separated peerid

/-- A record at the half of the distance of the node is sent, and is farther from the node. -/
theorem not_replicates : ¬Replicates ⟨16, true, false, 1000, 0, 0⟩ 20
    (run (step ⟨16, true, false, 1000, 0, 0⟩) start
      [.update (KadRecdups.empty.update ⟨7, 18, 60, []⟩)]) := by
  rw [(linked_run _).replicates_iff_separated]
  decide +kernel

end KadDb

end Neoip
