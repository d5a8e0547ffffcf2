/-
Neoip/KbucketClosest.lean

The nodes which `get_nclosest_addr` returns, against those which are the closest
to the target.

The buckets are by the distance to the local peer.  The ones above the target's
hold nodes which are farther than all those below them, so what the loop has
not reached there is farther than what it has.  The nodes of a bucket below the
reached ones agree with the local peer where the reached ones do not: such a
node is farther than a reached one exactly when the local peer itself is.  The
loop does not look at this, it stops as soon as it has enough nodes.

Main result: the nodes returned are the closest ones exactly when, however many
buckets on each side hold enough nodes, either nothing is left below them or
enough of their nodes are closer to the target than the local peer.
-/
import Neoip.KbucketRun
import Neoip.Nearest

namespace Neoip

namespace Kbucket

variable {s : Kbucket} {kad_addr_filter : Option (KadAddr → Bool)} {target_id : KadId}

/-! ### What is available -/

/-- The nodes of the table which the filter leaves. -/
def available (kad_addr_filter : Option (KadAddr → Bool)) (s : Kbucket) : List KadAddr :=
  (s.bucknode_db.map fun e => e.2.kad_addr).filter fun kad_addr =>
    !kad_addr_filter.any fun filter => filter kad_addr

/-- Those of them in the `k` buckets from `bucket_idx` up, and in the `k` buckets below it. -/
def around (kad_addr_filter : Option (KadAddr → Bool)) (bucket_idx k : ℕ) (s : Kbucket) :
    List KadAddr :=
  (s.available kad_addr_filter).filter fun kad_addr =>
    bucket_idx ≤ s.getBucketIdx kad_addr.peerid + k ∧
      s.getBucketIdx kad_addr.peerid < bucket_idx + k

def distTo (target_id : KadId) (kad_addr : KadAddr) : ℕ := (target_id ^^^ kad_addr.peerid).toNat

theorem Placed.mem_available (h : s.Placed) {kad_addr : KadAddr} :
    kad_addr ∈ s.available kad_addr_filter ↔
      (∃ node, s.getBucknode kad_addr.peerid = some node ∧ node.kad_addr = kad_addr) ∧
        (!kad_addr_filter.any fun filter => filter kad_addr) = true := by
  rw [available, List.mem_filter, List.mem_map]
  apply and_congr_left'
  constructor
  · rintro ⟨⟨peerid, node⟩, he, rfl⟩
    have hfind : s.getBucknode peerid = some node := (Omap.find_eq_some h.keyed).2 he
    refine ⟨node, ?_, rfl⟩
    rw [h.peerid_eq peerid node hfind]
    exact hfind
  · rintro ⟨node, hfind, heq⟩
    exact ⟨(kad_addr.peerid, node), Omap.mem_of_find hfind, heq⟩

theorem Placed.nodup_available (h : s.Placed) :
    ((s.available kad_addr_filter).map KadAddr.peerid).Nodup := by
  have hall : ((s.bucknode_db.map fun e => e.2.kad_addr).map KadAddr.peerid).Nodup := by
    have heq : (s.bucknode_db.map fun e => e.2.kad_addr).map KadAddr.peerid =
        s.bucknode_db.map Prod.fst := by
      rw [List.map_map]
      apply List.map_congr_left
      rintro ⟨peerid, node⟩ he
      exact h.peerid_eq peerid node ((Omap.find_eq_some h.keyed).2 he)
    rw [heq]
    exact h.keyed
  exact hall.sublist (List.filter_sublist.map KadAddr.peerid)

/-- `copy_to` gives the available nodes of the bucket. -/
theorem Placed.copyTo_perm (h : s.Placed) (bucket_idx : ℕ) :
    (s.copyTo kad_addr_filter (s.bucklist bucket_idx)).Perm
      ((s.available kad_addr_filter).filter fun kad_addr =>
        s.getBucketIdx kad_addr.peerid = bucket_idx) := by
  have hnodup : (s.copyTo kad_addr_filter (s.bucklist bucket_idx)).Nodup := by
    apply List.Nodup.filter
    apply (h.nodup bucket_idx).filterMap
    intro p q kad_addr hp hq
    obtain ⟨node, hnode, rfl⟩ := Option.map_eq_some_iff.1 hp
    obtain ⟨node', hnode', heq⟩ := Option.map_eq_some_iff.1 hq
    rw [← h.peerid_eq p node hnode, ← h.peerid_eq q node' hnode', heq]
  apply (List.perm_ext_iff_of_nodup hnodup ((h.nodup_available).of_map.filter _)).2
  intro kad_addr
  rw [copyTo, List.mem_filter, List.mem_filterMap, List.mem_filter, decide_eq_true_iff,
    h.mem_available, and_right_comm]
  apply and_congr_left'
  constructor
  · rintro ⟨peerid, hmem, hnode⟩
    obtain ⟨node, hfind, rfl⟩ := Option.map_eq_some_iff.1 hnode
    have hkey := h.peerid_eq peerid node hfind
    rw [hkey]
    exact ⟨⟨node, hfind, rfl⟩, ((h.mem_iff _ _).1 hmem).2⟩
  · rintro ⟨⟨node, hfind, heq⟩, hidx⟩
    refine ⟨kad_addr.peerid, (h.mem_iff _ _).2 ⟨?_, hidx⟩, ?_⟩
    · rw [hfind]
      rfl
    · rw [hfind, Option.map_some, heq]

/-! ### Distances -/

/-- What is in a bucket above the target's is farther than what is below. -/
theorem Placed.distTo_lt_of_le (h : s.Placed) {near far : KadAddr} {bucket_idx : ℕ}
    (htarget : s.getBucketIdx target_id < bucket_idx)
    (hnear : s.getBucketIdx near.peerid < bucket_idx)
    (hfar : bucket_idx ≤ s.getBucketIdx far.peerid) :
    distTo target_id near < distTo target_id far := by
  have hpos : 0 < bucket_idx := Nat.zero_lt_of_lt hnear
  rw [← not_le, le_getBucketIdx_iff h.width_pos hpos, not_le] at htarget hnear
  rw [le_getBucketIdx_iff h.width_pos hpos] at hfar
  rw [distTo, distTo, BitVec.toNat_xor, BitVec.toNat_xor, Nat.xor_comm,
    Nat.xor_comm _ far.peerid.toNat]
  exact XorDist.xor_lt_of_lt hnear hfar htarget

/-- What is in a lower bucket is farther than a node exactly when the local peer is. -/
theorem Placed.distTo_lt_iff_of_lt (h : s.Placed) {near far : KadAddr} {bucket_idx : ℕ}
    (hnear : bucket_idx ≤ s.getBucketIdx near.peerid)
    (hfar : s.getBucketIdx far.peerid < bucket_idx) :
    distTo target_id near < distTo target_id far ↔
      distTo target_id near < (target_id ^^^ s.local_peerid).toNat := by
  have hpos : 0 < bucket_idx := Nat.zero_lt_of_lt hfar
  rw [← not_le, le_getBucketIdx_iff h.width_pos hpos, not_le] at hfar
  rw [le_getBucketIdx_iff h.width_pos hpos] at hnear
  rw [distTo, distTo, BitVec.toNat_xor, BitVec.toNat_xor, BitVec.toNat_xor,
    Nat.xor_comm, Nat.xor_comm _ far.peerid.toNat, Nat.xor_comm _ s.local_peerid.toNat]
  exact XorDist.xor_lt_iff_of_lt hfar hnear

theorem sortByDist_pairwise {l : List KadAddr} (hnodup : (l.map KadAddr.peerid).Nodup) :
    (sortByDist target_id l).Pairwise fun a b => distTo target_id a < distTo target_id b := by
  have hle : (sortByDist target_id l).Pairwise fun a b =>
      (!ltKadId (target_id ^^^ b.peerid) (target_id ^^^ a.peerid)) = true := by
    apply List.pairwise_mergeSort
    · intro a b c hab hbc
      simp only [ltKadId, Bool.not_eq_true', decide_eq_false_iff_not, BitVec.not_lt] at hab hbc ⊢
      exact BitVec.le_trans hab hbc
    · intro a b
      simp only [ltKadId, Bool.or_eq_true, Bool.not_eq_true', decide_eq_false_iff_not,
        BitVec.not_lt]
      exact BitVec.le_total _ _
  have hne : (sortByDist target_id l).Pairwise fun a b => a.peerid ≠ b.peerid := by
    apply List.pairwise_map.1
    exact ((List.mergeSort_perm l _).map KadAddr.peerid).nodup_iff.2 hnodup
  apply (hle.and hne).imp
  rintro a b ⟨hab, hpeerid⟩
  rw [Bool.not_eq_true', ltKadId, decide_eq_false_iff_not, BitVec.not_lt, BitVec.le_def] at hab
  apply lt_of_le_of_ne hab
  intro heq
  exact hpeerid ((BitVec.xor_right_inj target_id).1 (BitVec.eq_of_toNat_eq heq))

/-! ### The loop -/

theorem around_zero (bucket_idx : ℕ) : s.around kad_addr_filter bucket_idx 0 = [] := by
  apply List.filter_eq_nil_iff.2
  intro kad_addr _ hmem
  have := of_decide_eq_true hmem
  omega

/-- The buckets grow with `k`. -/
theorem around_sublist {bucket_idx k k' : ℕ} (hk : k ≤ k') :
    (s.around kad_addr_filter bucket_idx k).Sublist (s.around kad_addr_filter bucket_idx k') := by
  apply List.monotone_filter_right
  intro kad_addr hmem
  have := of_decide_eq_true hmem
  apply decide_eq_true
  omega

theorem filter_or_perm {α : Type*} {p q : α → Bool} {l : List α}
    (hdisj : ∀ a ∈ l, p a → ¬ q a) :
    (l.filter fun a => p a || q a).Perm (l.filter p ++ l.filter q) := by
  apply (List.filter_append_perm p (l.filter fun a => p a || q a)).symm.trans
  rw [List.filter_filter, List.filter_filter]
  apply List.Perm.of_eq
  congr 1
  · apply List.filter_congr
    intro a _
    cases p a <;> simp
  · apply List.filter_congr
    intro a ha
    have := hdisj a ha
    cases hp : p a <;> simp_all

theorem around_succ_perm (bucket_idx k : ℕ) :
    (s.around kad_addr_filter bucket_idx (k + 1)).Perm (s.around kad_addr_filter bucket_idx k ++
      (s.available kad_addr_filter).filter (fun a => s.getBucketIdx a.peerid = bucket_idx + k) ++
      (s.available kad_addr_filter).filter fun a =>
        s.getBucketIdx a.peerid + (k + 1) = bucket_idx) := by
  have hsplit : s.around kad_addr_filter bucket_idx (k + 1) =
      (s.available kad_addr_filter).filter fun a =>
        (decide (bucket_idx ≤ s.getBucketIdx a.peerid + k ∧
            s.getBucketIdx a.peerid < bucket_idx + k) ||
          decide (s.getBucketIdx a.peerid = bucket_idx + k)) ||
        decide (s.getBucketIdx a.peerid + (k + 1) = bucket_idx) := by
    apply List.filter_congr
    intro a _
    rw [← Bool.decide_or, ← Bool.decide_or, decide_eq_decide]
    omega
  rw [hsplit]
  apply (filter_or_perm ?_).trans
  · apply List.Perm.append_right
    apply filter_or_perm
    intro a _ hin heq
    have := of_decide_eq_true hin
    have := of_decide_eq_true heq
    omega
  · intro a _ hin heq
    have := of_decide_eq_true heq
    rw [← Bool.decide_or] at hin
    have := of_decide_eq_true hin
    omega

/-- The bucket above the reached ones, when there is one. -/
theorem Placed.up_perm (h : s.Placed) (bucket_idx k : ℕ) :
    (if min (bucket_idx + k) s.bucklist_db.length < s.bucklist_db.length then
        s.copyTo kad_addr_filter (s.bucklist (min (bucket_idx + k) s.bucklist_db.length))
      else []).Perm
      ((s.available kad_addr_filter).filter fun a =>
        s.getBucketIdx a.peerid = bucket_idx + k) := by
  rcases Nat.lt_or_ge (bucket_idx + k) s.bucklist_db.length with hlt | hge
  · rw [min_eq_left (le_of_lt hlt), if_pos hlt]
    exact h.copyTo_perm _
  · rw [min_eq_right hge, if_neg (lt_irrefl _), List.filter_eq_nil_iff.2]
    intro a _ heq
    have := of_decide_eq_true heq
    have := h.getBucketIdx_lt a.peerid
    omega

/-- The bucket below the reached ones, when there is one. -/
theorem Placed.down_perm (h : s.Placed) (bucket_idx k : ℕ) :
    (if 0 < bucket_idx - k then
        s.copyTo kad_addr_filter (s.bucklist (bucket_idx - k - 1)) else []).Perm
      ((s.available kad_addr_filter).filter fun a =>
        s.getBucketIdx a.peerid + (k + 1) = bucket_idx) := by
  split_ifs with hpos
  · apply (h.copyTo_perm _).trans
    apply List.Perm.of_eq
    apply List.filter_congr
    intro a _
    rw [decide_eq_decide]
    omega
  · rw [List.filter_eq_nil_iff.2]
    intro a _ heq
    have := of_decide_eq_true heq
    omega

/-- The loop stops after the fewest rounds which are enough, or after all of them. -/
theorem Placed.nclosestLoop_perm (h : s.Placed) {max_nb_addr bucket_idx : ℕ}
    (hidx : bucket_idx ≤ s.bucklist_db.length) (fuel : ℕ) {k : ℕ} {tmp_addr_arr : List KadAddr}
    (htmp : tmp_addr_arr.Perm (s.around kad_addr_filter bucket_idx k))
    (hfuel : s.bucklist_db.length ≤ fuel + k)
    (hk : ∀ j < k, (s.around kad_addr_filter bucket_idx j).length < max_nb_addr) :
    ∃ k', (s.nclosestLoop max_nb_addr kad_addr_filter fuel
        (min (bucket_idx + k) s.bucklist_db.length) (bucket_idx - k) tmp_addr_arr).Perm
          (s.around kad_addr_filter bucket_idx k') ∧
      (∀ j < k', (s.around kad_addr_filter bucket_idx j).length < max_nb_addr) ∧
      (max_nb_addr ≤ (s.around kad_addr_filter bucket_idx k').length ∨
        ∀ a ∈ s.available kad_addr_filter, a ∈ s.around kad_addr_filter bucket_idx k') := by
  -- once both ends are reached, every available node is there
  have hends : ∀ k, bucket_idx ≤ k → s.bucklist_db.length ≤ bucket_idx + k →
      ∀ a ∈ s.available kad_addr_filter, a ∈ s.around kad_addr_filter bucket_idx k := by
    intro k hdown hup a ha
    refine List.mem_filter.2 ⟨ha, decide_eq_true ?_⟩
    have := h.getBucketIdx_lt a.peerid
    omega
  induction fuel generalizing k tmp_addr_arr with
  | zero => exact ⟨k, htmp, hk, Or.inr (hends k (by omega) (by omega))⟩
  | succ fuel ih =>
    rw [nclosestLoop]
    by_cases hlen : tmp_addr_arr.length < max_nb_addr
    · rw [if_pos hlen]
      by_cases hboth : bucket_idx - k = 0 ∧
          s.bucklist_db.length ≤ min (bucket_idx + k) s.bucklist_db.length
      · rw [if_pos hboth]
        exact ⟨k, htmp, hk, Or.inr (hends k (by omega) (by omega))⟩
      · have hinc : min (min (bucket_idx + k) s.bucklist_db.length + 1) s.bucklist_db.length =
            min (bucket_idx + (k + 1)) s.bucklist_db.length := by omega
        have hdec : bucket_idx - k - 1 = bucket_idx - (k + 1) := by omega
        have hround := ((htmp.append (h.up_perm bucket_idx k)).append
          (h.down_perm bucket_idx k)).trans (around_succ_perm bucket_idx k).symm
        rw [if_neg hboth, hinc]
        have hnext := ih hround (by omega) fun j hj => by
          rcases Nat.lt_succ_iff_lt_or_eq.1 hj with hlt | rfl
          · exact hk j hlt
          · rwa [← htmp.length_eq]
        rw [← hdec] at hnext
        exact hnext
    · rw [if_neg hlen]
      refine ⟨k, htmp, hk, Or.inl ?_⟩
      rw [← htmp.length_eq]
      exact not_lt.1 hlen

/-! ### The result -/

/-- However many buckets on each side of the target's hold enough nodes, either none is left below
them, or enough of them are closer to the target than the local peer is. -/
def EnoughCloser (target_id : KadId) (max_nb_addr : ℕ)
    (kad_addr_filter : Option (KadAddr → Bool)) (s : Kbucket) : Prop :=
  ∀ k, max_nb_addr ≤ (s.around kad_addr_filter (s.getBucketIdx target_id) k).length →
    (∃ a ∈ s.available kad_addr_filter, s.getBucketIdx a.peerid + k < s.getBucketIdx target_id) →
    max_nb_addr ≤ (s.around kad_addr_filter (s.getBucketIdx target_id) k).countP fun b =>
      distTo target_id b < (target_id ^^^ s.local_peerid).toNat

/-- What the loop has reached is enough exactly when `EnoughCloser` holds: the nodes above are
farther than all the reached ones, and those below are where the local peer is. -/
theorem Placed.enoughCloser_iff (h : s.Placed) {max_nb_addr k : ℕ}
    (hfew : ∀ j < k,
      (s.around kad_addr_filter (s.getBucketIdx target_id) j).length < max_nb_addr)
    (hstop : max_nb_addr ≤ (s.around kad_addr_filter (s.getBucketIdx target_id) k).length ∨
      ∀ a ∈ s.available kad_addr_filter,
        a ∈ s.around kad_addr_filter (s.getBucketIdx target_id) k) :
    (∀ a ∈ s.available kad_addr_filter,
      a ∉ s.around kad_addr_filter (s.getBucketIdx target_id) k →
      max_nb_addr ≤ (s.around kad_addr_filter (s.getBucketIdx target_id) k).countP fun b =>
        distTo target_id b < distTo target_id a) ↔
      EnoughCloser target_id max_nb_addr kad_addr_filter s := by
  -- of the reached nodes, those closer than a node below are those closer than the local peer
  have hbelow : ∀ a, s.getBucketIdx a.peerid + k < s.getBucketIdx target_id →
      (s.around kad_addr_filter (s.getBucketIdx target_id) k).countP
          (fun b => distTo target_id b < distTo target_id a) =
        (s.around kad_addr_filter (s.getBucketIdx target_id) k).countP
          fun b => distTo target_id b < (target_id ^^^ s.local_peerid).toNat := by
    intro a ha
    apply List.countP_congr
    intro b hb
    have hb := of_decide_eq_true (List.mem_filter.1 hb).2
    rw [decide_eq_true_iff, decide_eq_true_iff]
    exact h.distTo_lt_iff_of_lt le_rfl (by omega)
  constructor
  · rintro hcount k' hk' ⟨a, ha, hlow⟩
    have hk : k ≤ k' := by
      by_contra hlt
      exact absurd hk' (not_le.2 (hfew k' (not_le.1 hlt)))
    have hnot : a ∉ s.around kad_addr_filter (s.getBucketIdx target_id) k := by
      intro hmem
      have := of_decide_eq_true (List.mem_filter.1 hmem).2
      omega
    calc max_nb_addr
        ≤ (s.around kad_addr_filter (s.getBucketIdx target_id) k).countP
            fun b => distTo target_id b < distTo target_id a := hcount a ha hnot
      _ = (s.around kad_addr_filter (s.getBucketIdx target_id) k).countP
            fun b => distTo target_id b < (target_id ^^^ s.local_peerid).toNat :=
          hbelow a (by omega)
      _ ≤ (s.around kad_addr_filter (s.getBucketIdx target_id) k').countP
            fun b => distTo target_id b < (target_id ^^^ s.local_peerid).toNat :=
          (around_sublist hk).countP_le
  · intro hcloser a ha hnot
    have henough := hstop.resolve_right fun hall => hnot (hall a ha)
    rcases Nat.lt_or_ge (s.getBucketIdx a.peerid + k) (s.getBucketIdx target_id) with hlow | hge
    · rw [hbelow a hlow]
      exact hcloser k henough ⟨a, ha, hlow⟩
    · -- the node is above the reached ones
      apply henough.trans (le_of_eq _)
      symm
      apply List.countP_eq_length.2
      intro b hb
      have hb := of_decide_eq_true (List.mem_filter.1 hb).2
      have hfar : s.getBucketIdx target_id + k ≤ s.getBucketIdx a.peerid := by
        by_contra hlt
        exact hnot (List.mem_filter.2 ⟨ha, decide_eq_true ⟨hge, not_le.1 hlt⟩⟩)
      apply decide_eq_true
      apply h.distTo_lt_of_le _ hb.2 hfar
      omega

/-- **Closest nodes**: what is returned is the nodes of the table closest to the target exactly
when `EnoughCloser` holds. -/
theorem nearest_getNclosestAddr_iff (h : s.Placed) (target_id : KadId) (max_nb_addr : ℕ)
    (kad_addr_filter : Option (KadAddr → Bool)) :
    Nearest (distTo target_id) max_nb_addr (s.available kad_addr_filter)
        (s.getNclosestAddr target_id max_nb_addr kad_addr_filter) ↔
      EnoughCloser target_id max_nb_addr kad_addr_filter s := by
  have hidx := le_of_lt (h.getBucketIdx_lt target_id)
  have hzero : List.Perm [] (s.around kad_addr_filter (s.getBucketIdx target_id) 0) := by
    rw [around_zero]
  obtain ⟨k, hperm, hfew, hstop⟩ := h.nclosestLoop_perm hidx s.bucklist_db.length hzero le_rfl
    fun j hj => absurd hj (Nat.not_lt_zero j)
  rw [Nat.add_zero, min_eq_left hidx, Nat.sub_zero] at hperm
  rw [← h.enoughCloser_iff hfew hstop]
  have hnodup : ((s.nclosestLoop max_nb_addr kad_addr_filter s.bucklist_db.length
      (s.getBucketIdx target_id) (s.getBucketIdx target_id) []).map KadAddr.peerid).Nodup := by
    apply (hperm.map KadAddr.peerid).nodup_iff.2
    exact h.nodup_available.sublist (List.filter_sublist.map KadAddr.peerid)
  have hsort : (sortByDist target_id (s.nclosestLoop max_nb_addr kad_addr_filter
      s.bucklist_db.length (s.getBucketIdx target_id) (s.getBucketIdx target_id) [])).Perm
      (s.around kad_addr_filter (s.getBucketIdx target_id) k) :=
    (List.mergeSort_perm _ _).trans hperm
  rw [getNclosestAddr, nearest_take_iff h.nodup_available.of_map (sortByDist_pairwise hnodup)
    (fun a ha => (List.mem_filter.1 (hsort.mem_iff.1 ha)).1) ?_]
  · apply forall₂_congr
    intro a _
    rw [hsort.mem_iff, hsort.countP_eq]
  · rw [hsort.length_eq]
    exact hstop.imp_right fun hall a ha => hsort.mem_iff.2 (hall a ha)

/-- A table with the local peer, which is 16, and the peers 20 and 17. -/
def farEvents : List KbucketEvent :=
  [.notifySrckaddr (sampleAddr 20) true, .notifySrckaddr (sampleAddr 17) true]

theorem nearest_getNclosestAddr_iff_sample :
    ∃ s, run step (ctor (sampleAddr 16) 1 8 5000) farEvents = some s ∧
      (Nearest (distTo 24) 1 (s.available none) (s.getNclosestAddr 24 1 none) ↔
        EnoughCloser 24 1 none s) := by
  obtain ⟨s, hrun, hinv⟩ := run_inv (sampleAddr 16) 1 (by decide) 8 5000 farEvents
  exact ⟨s, hrun, nearest_getNclosestAddr_iff hinv.sound.placed 24 1 none⟩

/-- The peer 20 is returned for the target 24, and the peer 17 is closer. -/
theorem not_nearest_getNclosestAddr :
    ∃ s, run step (ctor (sampleAddr 16) 1 8 5000) farEvents = some s ∧ s.Placed ∧
      ¬Nearest (distTo 24) 1 (s.available none) (s.getNclosestAddr 24 1 none) := by
  obtain ⟨s, hrun, hinv⟩ := run_inv (sampleAddr 16) 1 (by decide) 8 5000 farEvents
  refine ⟨s, hrun, hinv.sound.placed, fun h => ?_⟩
  have hscan : (run step (ctor (sampleAddr 16) 1 8 5000) farEvents).map (fun s =>
      (s.getBucketIdx 24, s.bucklist_db.length, s.nclosestLoop 1 none 160 3 3 [],
        s.available none)) =
      some (3, 160, [sampleAddr 20], [sampleAddr 16, sampleAddr 17, sampleAddr 20]) := by
    decide +kernel
  rw [hrun] at hscan
  simp only [Option.map_some, Option.some.injEq, Prod.mk.injEq] at hscan
  obtain ⟨hidx, hlen, hloop, havailable⟩ := hscan
  have hresult : s.getNclosestAddr 24 1 none = [sampleAddr 20] := by
    simp only [getNclosestAddr, sortByDist, hidx, hlen, hloop, List.mergeSort_singleton]
    rfl
  have hnearest := h.nearest
  rw [hresult, havailable] at hnearest
  exact absurd (hnearest (sampleAddr 17) (by decide) (by decide) (sampleAddr 20) (by decide))
    (by decide)

end Kbucket

end Neoip
