/-
Neoip/KbucketTable.lean

The routing table as a table of nodes in buckets, and what its operations on a
node and on a bucket list do there.

`table` leaves the addresses out: the candidate of a node is the peer id of its
pending node.  `Linked` is what the maps keep whatever the bucket lists are: a
node is pinged when it has a pending node, and `pending_node_db` holds the
pending nodes of the nodes, under their peer ids.

Main results: one specification for each function (`bucknodeCtor_spec`,
`pingStart_spec`, `pingStop_spec`, `bucknodeDtor_spec`, `insert_eq`,
`update_eq`, `remove_eq`).
-/
import Neoip.Kbucket
import Neoip.Ktable

namespace Neoip

namespace Kbucket

/-- The pending node of the node. -/
def pendingOf (peerid : KadId) (s : Kbucket) : Option KadAddr :=
  (s.getBucknode peerid).bind Bucknode.pending_node

def table (s : Kbucket) : Ktable KadId where
  node peerid := (s.getBucknode peerid).map fun node => node.pending_node.map KadAddr.peerid
  list bucket_idx := s.bucklist bucket_idx

/-- The databases agree with one another. -/
structure Linked (s : Kbucket) : Prop where
  keyed : Omap.Keyed s.bucknode_db
  peerid_eq : ∀ peerid node, s.getBucknode peerid = some node → node.kad_addr.peerid = peerid
  ping_rpc_eq : ∀ peerid node, s.getBucknode peerid = some node →
    node.ping_rpc = node.pending_node.isSome
  pending_keyed : Omap.Keyed s.pending_node_db
  pending_iff : ∀ c kad_addr, Omap.find c s.pending_node_db = some kad_addr ↔
    kad_addr.peerid = c ∧ ∃ peerid, s.pendingOf peerid = some kad_addr

/-- What the operations on the nodes leave as it is. -/
structure Frame (s s' : Kbucket) : Prop where
  local_peerid : s'.local_peerid = s.local_peerid
  kbucket_width : s'.kbucket_width = s.kbucket_width
  kbucket_height : s'.kbucket_height = s.kbucket_height
  delay : s'.delete_timedout_rpc_min_delay = s.delete_timedout_rpc_min_delay
  length : s'.bucklist_db.length = s.bucklist_db.length
  todelete : s'.peerid_todelete_db = s.peerid_todelete_db

variable {s s' s'' : Kbucket} {peerid : KadId} {kad_addr : KadAddr} {node : Bucknode}

theorem Frame.refl (s : Kbucket) : Frame s s := ⟨rfl, rfl, rfl, rfl, rfl, rfl⟩

theorem Frame.trans (h : Frame s s') (h' : Frame s' s'') : Frame s s'' :=
  ⟨h'.1.trans h.1, h'.2.trans h.2, h'.3.trans h.3, h'.4.trans h.4, h'.5.trans h.5, h'.6.trans h.6⟩

theorem Frame.getBucketIdx (h : Frame s s') : s'.getBucketIdx = s.getBucketIdx := by
  funext peerid
  rw [Kbucket.getBucketIdx, Kbucket.getBucketIdx, h.local_peerid, h.kbucket_width]

/-! ### The nodes -/

theorem table_node_eq_none : s.table.node peerid = none ↔ s.getBucknode peerid = none :=
  Option.map_eq_none_iff

theorem table_node_isSome : (s.table.node peerid).isSome = (s.getBucknode peerid).isSome :=
  Option.isSome_map

theorem table_node_eq_some {c : KadId} : s.table.node peerid = some (some c) ↔
    ∃ kad_addr, s.pendingOf peerid = some kad_addr ∧ kad_addr.peerid = c := by
  show (s.getBucknode peerid).map _ = _ ↔ ∃ kad_addr, (s.getBucknode peerid).bind _ = _ ∧ _
  cases s.getBucknode peerid <;> simp

theorem Linked.find_pending (h : s.Linked) (hp : s.pendingOf peerid = some kad_addr) :
    Omap.find kad_addr.peerid s.pending_node_db = some kad_addr :=
  (h.pending_iff _ _).2 ⟨rfl, peerid, hp⟩

theorem Linked.not_candidate (h : s.Linked) {c : KadId} (hc : s.isPendingNode c = false) :
    ∀ peerid, s.table.node peerid ≠ some (some c) := by
  intro peerid hnode
  obtain ⟨kad_addr, hp, rfl⟩ := table_node_eq_some.1 hnode
  rw [isPendingNode, h.find_pending hp] at hc
  cases hc

/-- The links after one node has changed. -/
theorem Linked.update (h : s.Linked) (peerid : KadId) (o : Option Bucknode)
    (hnode : ∀ q, s'.getBucknode q = if q = peerid then o else s.getBucknode q)
    (hkeyed : Omap.Keyed s'.bucknode_db)
    (ho : ∀ node, o = some node →
      node.kad_addr.peerid = peerid ∧ node.ping_rpc = node.pending_node.isSome)
    (hpending : Omap.Keyed s'.pending_node_db)
    (hiff : ∀ c kad_addr, Omap.find c s'.pending_node_db = some kad_addr ↔ kad_addr.peerid = c ∧
      ∃ q, (if q = peerid then o.bind Bucknode.pending_node else s.pendingOf q) = some kad_addr) :
    s'.Linked where
  keyed := hkeyed
  peerid_eq q node hq := by
    rw [hnode] at hq
    split_ifs at hq with heq
    · rw [heq]
      exact (ho node hq).1
    · exact h.peerid_eq q node hq
  ping_rpc_eq q node hq := by
    rw [hnode] at hq
    split_ifs at hq with heq
    · exact (ho node hq).2
    · exact h.ping_rpc_eq q node hq
  pending_keyed := hpending
  pending_iff c kad_addr := by
    rw [hiff]
    apply and_congr_right'
    apply exists_congr
    intro q
    show _ ↔ (s'.getBucknode q).bind _ = _
    rw [hnode]
    split_ifs <;> rfl

/-- A node does not count where its pending node is another one, before and after. -/
theorem exists_pendingOf_congr {o : Option KadAddr} (hold : s.pendingOf peerid ≠ some kad_addr)
    (hnew : o ≠ some kad_addr) :
    (∃ q, s.pendingOf q = some kad_addr) ↔
      ∃ q, (if q = peerid then o else s.pendingOf q) = some kad_addr := by
  apply exists_congr
  intro q
  by_cases heq : q = peerid
  · rw [if_pos heq, heq]
    exact iff_of_false hold hnew
  · rw [if_neg heq]

theorem bucknodeCtor_spec (h : s.Linked) (hnew : s.getBucknode kad_addr.peerid = none) :
    ∃ s', s.bucknodeCtor kad_addr = some s' ∧ Frame s s' ∧ s'.Linked ∧
      s'.bucklist_db = s.bucklist_db ∧ ∀ q, s'.getBucknode q =
        if q = kad_addr.peerid then some ⟨kad_addr, false, none⟩ else s.getBucknode q := by
  rw [bucknodeCtor, hnew]
  have hnode : ∀ q, Omap.find q (Omap.insert ltKadId kad_addr.peerid ⟨kad_addr, false, none⟩
      s.bucknode_db) =
        if q = kad_addr.peerid then some ⟨kad_addr, false, none⟩ else s.getBucknode q := by
    intro q
    rw [Omap.insert_of_find hnew]
    exact Omap.find_place hnew
  have hpending : s.pendingOf kad_addr.peerid = none := by
    rw [pendingOf, hnew]
    rfl
  refine ⟨_, rfl, ⟨rfl, rfl, rfl, rfl, rfl, rfl⟩, ?_, rfl, hnode⟩
  apply h.update kad_addr.peerid (some ⟨kad_addr, false, none⟩)
  · exact hnode
  · show Omap.Keyed (Omap.insert _ _ _ _)
    rw [Omap.insert_of_find hnew]
    exact Omap.keyed_place h.keyed hnew
  · rintro node ⟨⟩
    exact ⟨rfl, rfl⟩
  · exact h.pending_keyed
  · intro c a
    show Omap.find c s.pending_node_db = _ ↔ _
    rw [h.pending_iff]
    apply and_congr_right'
    apply exists_pendingOf_congr
    · rw [hpending]
      exact nofun
    · exact nofun

theorem pingStart_spec (h : s.Linked) (hnode : s.getBucknode peerid = some node)
    (hping : node.ping_rpc = false) (hpending : s.isPendingNode kad_addr.peerid = false) :
    ∃ s', s.pingStart peerid kad_addr true = some s' ∧ Frame s s' ∧ s'.Linked ∧
      s'.bucklist_db = s.bucklist_db ∧ ∀ q, s'.getBucknode q =
        if q = peerid then some { node with ping_rpc := true, pending_node := some kad_addr }
        else s.getBucknode q := by
  rw [pingStart, hnode]
  simp only [hping, hpending, Bool.false_eq_true, Bool.not_true, if_false]
  have hnone : Omap.find kad_addr.peerid s.pending_node_db = none := by
    rwa [isPendingNode, Option.isSome_eq_false_iff, Option.isNone_iff_eq_none] at hpending
  have hold : s.pendingOf peerid = none := by
    have hsome := h.ping_rpc_eq peerid node hnode
    rw [hping, eq_comm, Option.isSome_eq_false_iff, Option.isNone_iff_eq_none] at hsome
    rw [pendingOf, hnode]
    exact hsome
  refine ⟨_, rfl, ⟨rfl, rfl, rfl, rfl, rfl, rfl⟩, ?_, rfl, fun q => Omap.find_assign⟩
  apply h.update peerid (some { node with ping_rpc := true, pending_node := some kad_addr })
  · exact fun q => Omap.find_assign
  · exact Omap.keyed_assign h.keyed
  · rintro node' ⟨⟩
    exact ⟨h.peerid_eq peerid node hnode, rfl⟩
  · show Omap.Keyed (Omap.insert _ _ _ _)
    rw [Omap.insert_of_find hnone]
    exact Omap.keyed_place h.pending_keyed hnone
  · intro c a
    show Omap.find c (Omap.insert _ _ _ _) = _ ↔ _
    rw [Omap.insert_of_find hnone, Omap.find_place hnone]
    split_ifs with hc
    · subst hc
      constructor
      · rintro ⟨⟩
        exact ⟨rfl, peerid, if_pos rfl⟩
      · rintro ⟨heq, q, hq⟩
        split_ifs at hq
        · exact hq
        · -- the pending node of another node would be in the map already
          have hfind := h.find_pending hq
          rw [heq, hnone] at hfind
          cases hfind
    · rw [h.pending_iff]
      apply and_congr_right
      rintro rfl
      apply exists_pendingOf_congr
      · rw [hold]
        exact nofun
      · rintro ⟨⟩
        exact hc rfl

/-- The pending node is the node's own when no other node has one of the same peer id. -/
theorem pingStop_spec (h : s.Linked) (hnode : s.getBucknode peerid = some node)
    (hpending : node.pending_node = some kad_addr)
    (hinj : ∀ q c, s.pendingOf q = some c → c.peerid = kad_addr.peerid → q = peerid) :
    ∃ s', s.pingStop peerid = some s' ∧ Frame s s' ∧ s'.Linked ∧
      s'.bucklist_db = s.bucklist_db ∧ ∀ q, s'.getBucknode q =
        if q = peerid then some { node with ping_rpc := false, pending_node := none }
        else s.getBucknode q := by
  have hping : node.ping_rpc = true := by
    rw [h.ping_rpc_eq peerid node hnode, hpending]
    rfl
  have hown : s.pendingOf peerid = some kad_addr := by
    rw [pendingOf, hnode]
    exact hpending
  rw [pingStop, hnode]
  simp only [hping, hpending]
  refine ⟨_, rfl, ⟨rfl, rfl, rfl, rfl, rfl, rfl⟩, ?_, rfl, fun q => Omap.find_assign⟩
  apply h.update peerid (some { node with ping_rpc := false, pending_node := none })
  · exact fun q => Omap.find_assign
  · exact Omap.keyed_assign h.keyed
  · rintro node' ⟨⟩
    exact ⟨h.peerid_eq peerid node hnode, rfl⟩
  · exact Omap.keyed_erase h.pending_keyed
  · intro c a
    show Omap.find c (Omap.erase _ _) = _ ↔ _
    rw [Omap.find_erase]
    split_ifs with hc
    · subst hc
      constructor
      · rintro ⟨⟩
      · rintro ⟨heq, q, hq⟩
        split_ifs at hq with hne
        · cases hq
        · exact absurd (hinj q a hq heq) hne
    -- the pending node of another bucket node is another address
    · rw [h.pending_iff]
      apply and_congr_right
      rintro rfl
      apply exists_pendingOf_congr
      · rw [hown]
        rintro ⟨⟩
        exact hc rfl
      · exact nofun

theorem bucknodeDtor_spec (h : s.Linked) (hnode : (s.getBucknode peerid).isSome)
    (hinj : ∀ q c c', s.pendingOf q = some c → s.pendingOf peerid = some c' →
      c.peerid = c'.peerid → q = peerid) :
    ∃ s', s.bucknodeDtor peerid = some s' ∧ Frame s s' ∧ s'.Linked ∧
      s'.bucklist_db = s.bucklist_db ∧ ∀ q, s'.getBucknode q =
        if q = peerid then none else s.getBucknode q := by
  obtain ⟨node, hnode⟩ := Option.isSome_iff_exists.1 hnode
  -- the ping is stopped first, if there is one
  obtain ⟨s₁, hstop, hframe, hlinked, hlist, hget, hnone⟩ :
      ∃ s₁, (if node.ping_rpc then s.pingStop peerid else some s) = some s₁ ∧ Frame s s₁ ∧
        s₁.Linked ∧ s₁.bucklist_db = s.bucklist_db ∧
        (∀ q, q ≠ peerid → s₁.getBucknode q = s.getBucknode q) ∧
        s₁.pendingOf peerid = none := by
    have hping := h.ping_rpc_eq peerid node hnode
    rcases hpending : node.pending_node with - | kad_addr
    · rw [hpending] at hping
      rw [hping]
      refine ⟨s, rfl, Frame.refl s, h, rfl, fun _ _ => rfl, ?_⟩
      rw [pendingOf, hnode]
      exact hpending
    · rw [hpending] at hping
      rw [hping, Option.isSome_some, if_pos rfl]
      have hown : s.pendingOf peerid = some kad_addr := by
        rw [pendingOf, hnode]
        exact hpending
      obtain ⟨s₁, hstop, hframe, hlinked, hlist, hget⟩ := pingStop_spec h hnode hpending
        fun q c hc => hinj q c kad_addr hc hown
      refine ⟨s₁, hstop, hframe, hlinked, hlist, fun q hq => ?_, ?_⟩
      · rw [hget, if_neg hq]
      · rw [pendingOf, hget, if_pos rfl]
        rfl
  have hdtor : s.bucknodeDtor peerid =
      some { s₁ with bucknode_db := Omap.erase peerid s₁.bucknode_db } := by
    simp only [bucknodeDtor, hnode, Option.bind_eq_bind]
    split_ifs at hstop ⊢
    · rw [hstop]
      rfl
    · obtain rfl := Option.some.inj hstop
      rfl
  have hget' : ∀ q, Omap.find q (Omap.erase peerid s₁.bucknode_db) =
      if q = peerid then none else s₁.getBucknode q := fun q => Omap.find_erase
  refine ⟨_, hdtor, ⟨hframe.1, hframe.2, hframe.3, hframe.4, hframe.5, hframe.6⟩, ?_, hlist, ?_⟩
  · apply hlinked.update peerid none
    · exact hget'
    · exact Omap.keyed_erase hlinked.keyed
    · rintro node' ⟨⟩
    · exact hlinked.pending_keyed
    · intro c a
      refine (hlinked.pending_iff c a).trans (and_congr_right' ?_)
      apply exists_pendingOf_congr
      · rw [hnone]
        exact nofun
      · exact nofun
  · intro q
    show Omap.find q (Omap.erase peerid s₁.bucknode_db) = _
    rw [hget']
    split_ifs with hq
    · rfl
    · exact hget q hq

/-! ### The bucket lists -/

section Bucklist

variable {bucket_idx : ℕ} {bucklist : List KadId}

theorem getElem?_bucklist_db (hidx : bucket_idx < s.bucklist_db.length) :
    s.bucklist_db[bucket_idx]? = some (s.bucklist bucket_idx) := by
  rw [Kbucket.bucklist, List.getD_eq_getElem?_getD, List.getElem?_eq_getElem hidx,
    Option.getD_some]

theorem bucklist_congr (h : s'.bucklist_db = s.bucklist_db) (bucket_idx : ℕ) :
    s'.bucklist bucket_idx = s.bucklist bucket_idx := by
  rw [Kbucket.bucklist, h, Kbucket.bucklist]

theorem bucklist_setBucklist (hidx : bucket_idx < s.bucklist_db.length) :
    (fun i => (s.setBucklist bucket_idx bucklist).bucklist i) =
      Function.update (fun i => s.bucklist i) bucket_idx bucklist := by
  funext i
  show (s.bucklist_db.set bucket_idx bucklist).getD i [] = _
  rw [Function.update_apply, List.getD_eq_getElem?_getD, List.getElem?_set, if_pos hidx]
  by_cases heq : bucket_idx = i
  · rw [if_pos heq, if_pos heq.symm, Option.getD_some]
  · rw [if_neg heq, if_neg (Ne.symm heq), Kbucket.bucklist, List.getD_eq_getElem?_getD]

theorem Frame.setBucklist (s : Kbucket) (bucket_idx : ℕ) (bucklist : List KadId) :
    Frame s (s.setBucklist bucket_idx bucklist) :=
  ⟨rfl, rfl, rfl, rfl, List.length_set, rfl⟩

theorem Linked.setBucklist (h : s.Linked) : (s.setBucklist bucket_idx bucklist).Linked :=
  ⟨h.keyed, h.peerid_eq, h.ping_rpc_eq, h.pending_keyed, h.pending_iff⟩

theorem insert_eq (hidx : s.getBucketIdx peerid < s.bucklist_db.length)
    (hnot : peerid ∉ s.bucklist (s.getBucketIdx peerid))
    (hlen : (s.bucklist (s.getBucketIdx peerid)).length < s.kbucket_height) :
    s.insert (s.getBucketIdx peerid) peerid = some (s.setBucklist (s.getBucketIdx peerid)
      (s.bucklist (s.getBucketIdx peerid) ++ [peerid])) := by
  rw [insert, getElem?_bucklist_db hidx]
  exact if_pos ⟨hnot, rfl, hlen⟩

theorem update_eq (hidx : s.getBucketIdx peerid < s.bucklist_db.length)
    (hmem : peerid ∈ s.bucklist (s.getBucketIdx peerid))
    (hlen : (s.bucklist (s.getBucketIdx peerid)).length ≤ s.kbucket_height) :
    s.update (s.getBucketIdx peerid) peerid = some (s.setBucklist (s.getBucketIdx peerid)
      ((s.bucklist (s.getBucketIdx peerid)).filter (· ≠ peerid) ++ [peerid])) := by
  rw [update, getElem?_bucklist_db hidx]
  exact if_pos ⟨hmem, hlen, rfl⟩

theorem remove_eq (hidx : s.getBucketIdx peerid < s.bucklist_db.length)
    (hmem : peerid ∈ s.bucklist (s.getBucketIdx peerid)) :
    s.remove (s.getBucketIdx peerid) peerid = some (s.setBucklist (s.getBucketIdx peerid)
      ((s.bucklist (s.getBucketIdx peerid)).filter (· ≠ peerid))) := by
  rw [remove, getElem?_bucklist_db hidx]
  exact if_pos ⟨hmem, rfl⟩

end Bucklist

/-! ### Soundness -/

/-- The invariant: the maps are linked, and the nodes are a well formed table. -/
structure Sound (s : Kbucket) : Prop where
  width : s.bucklist_db.length * s.kbucket_width = KAD_ID_NBIT
  linked : s.Linked
  wf : s.table.WF s.getBucketIdx s.kbucket_height

theorem Sound.placed (h : s.Sound) : s.Placed where
  width := h.width
  keyed := h.linked.keyed
  peerid_eq := h.linked.peerid_eq
  nodup := h.wf.nodup
  mem_iff bucket_idx peerid := by
    rw [← table_node_isSome]
    exact h.wf.mem_iff bucket_idx peerid

theorem Sound.mem_bucklist (h : s.Sound) (hnode : (s.getBucknode peerid).isSome) :
    peerid ∈ s.bucklist (s.getBucketIdx peerid) :=
  (h.placed.mem_iff _ _).2 ⟨hnode, rfl⟩

/-- No two nodes have pending nodes of the same peer id. -/
theorem Sound.pendingOf_inj (h : s.Sound) {p q : KadId} {c c' : KadAddr}
    (hp : s.pendingOf p = some c) (hq : s.pendingOf q = some c') (heq : c.peerid = c'.peerid) :
    p = q :=
  h.wf.inj p q c'.peerid (table_node_eq_some.2 ⟨c, hp, heq⟩) (table_node_eq_some.2 ⟨c', hq, rfl⟩)

/-- The invariant is one of what the operations change only. -/
theorem Sound.of_frame (h : s.Sound) (hframe : Frame s s') (hlinked : s'.Linked)
    (hwf : s'.table.WF s.getBucketIdx s.kbucket_height) : s'.Sound where
  width := by
    rw [hframe.length, hframe.kbucket_width]
    exact h.width
  linked := hlinked
  wf := by
    rw [hframe.getBucketIdx, hframe.kbucket_height]
    exact hwf

end Kbucket

end Neoip
