/-
Neoip/KbucketRun.lean

The routing table over any sequence of notifications.

Each handler of the source is one operation on the table of `Ktable`: a node is
added, put at the tail of its list, checked, no longer checked, removed, or
replaced by its candidate.  A node which is removed while it is pinged has its
ping stopped by the destructor, so that its candidate goes with it.

Main result: in every state reached from the constructor no assertion has
failed, the table is as `Valid` says, and a node which a notification evicts is
one whose ping has just failed, or which a failed rpc was counted against.
-/
import Neoip.KbucketTable

namespace Neoip

namespace Kbucket

variable {s s' : Kbucket} {peerid : KadId} {kad_addr : KadAddr} {node : Bucknode}

/-! ### The operations on the table -/

/-- The nodes of the table after one node has changed. -/
theorem table_node_update {o : Option Bucknode}
    (hnode : ∀ q, s'.getBucknode q = if q = peerid then o else s.getBucknode q) :
    s'.table.node = Function.update s.table.node peerid
      (o.map fun node => node.pending_node.map KadAddr.peerid) := by
  funext q
  show (s'.getBucknode q).map _ = _
  rw [hnode, Function.update_apply]
  split_ifs <;> rfl

theorem table_setBucklist {bucket_idx : ℕ} (hidx : bucket_idx < s.bucklist_db.length)
    (bucklist : List KadId) :
    (s.setBucklist bucket_idx bucklist).table =
      { s.table with list := Function.update s.table.list bucket_idx bucklist } := by
  ext1
  · rfl
  · exact bucklist_setBucklist hidx

/-- The lists of the table when only the nodes have changed. -/
theorem table_list_congr (h : s'.bucklist_db = s.bucklist_db) : s'.table.list = s.table.list :=
  funext fun i => bucklist_congr h i

theorem Sound.update_spec (h : s.Sound) (hnode : (s.getBucknode peerid).isSome) :
    ∃ s', s.update (s.getBucketIdx peerid) peerid = some s' ∧ s'.Sound ∧ Frame s s' ∧
      (∀ q, s'.getBucknode q = s.getBucknode q) := by
  have hidx := h.placed.getBucketIdx_lt peerid
  refine ⟨_, update_eq hidx (h.mem_bucklist hnode) (h.wf.length_le _), ?_,
    Frame.setBucklist _ _ _, fun q => rfl⟩
  apply h.of_frame (Frame.setBucklist _ _ _) h.linked.setBucklist
  rw [table_setBucklist hidx]
  exact h.wf.touch (table_node_isSome.trans hnode)

theorem Sound.add_spec (h : s.Sound) (hnew : s.getBucknode kad_addr.peerid = none)
    (hpending : s.isPendingNode kad_addr.peerid = false)
    (hlen : (s.bucklist (s.getBucketIdx kad_addr.peerid)).length < s.kbucket_height) :
    ∃ s', (do let s₁ ← s.bucknodeCtor kad_addr
              s₁.insert (s.getBucketIdx kad_addr.peerid) kad_addr.peerid) = some s' ∧
      s'.Sound ∧ Frame s s' ∧ ∀ q, s'.getBucknode q =
        if q = kad_addr.peerid then some ⟨kad_addr, false, none⟩ else s.getBucknode q := by
  obtain ⟨s₁, hctor, hframe, hlinked, hlist, hget⟩ := bucknodeCtor_spec h.linked hnew
  have hidx := h.placed.getBucketIdx_lt kad_addr.peerid
  have hnot : kad_addr.peerid ∉ s.bucklist (s.getBucketIdx kad_addr.peerid) := by
    intro hmem
    have hsome := ((h.placed.mem_iff _ _).1 hmem).1
    rw [hnew] at hsome
    cases hsome
  rw [hctor, ← hframe.getBucketIdx]
  rw [← hframe.getBucketIdx, ← hframe.length] at hidx
  rw [← hframe.getBucketIdx, ← bucklist_congr hlist] at hnot hlen
  rw [← hframe.kbucket_height] at hlen
  refine ⟨_, insert_eq hidx hnot hlen, ?_, hframe.trans (Frame.setBucklist _ _ _), hget⟩
  apply h.of_frame (hframe.trans (Frame.setBucklist _ _ _)) hlinked.setBucklist
  have htable : (s₁.setBucklist (s₁.getBucketIdx kad_addr.peerid)
      (s₁.bucklist (s₁.getBucketIdx kad_addr.peerid) ++ [kad_addr.peerid])).table =
      s.table.add s.getBucketIdx kad_addr.peerid := by
    rw [table_setBucklist hidx]
    ext1
    · exact table_node_update hget
    · show Function.update s₁.table.list _ (s₁.table.list _ ++ _) = _
      rw [table_list_congr hlist, hframe.getBucketIdx]
      rfl
  rw [htable]
  apply h.wf.add (table_node_eq_none.2 hnew) (h.linked.not_candidate hpending)
  rw [hframe.getBucketIdx, bucklist_congr hlist, hframe.kbucket_height] at hlen
  exact hlen

theorem Sound.pingStart_spec (h : s.Sound) (hnode : s.getBucknode peerid = some node)
    (hping : node.ping_rpc = false) (hnew : s.getBucknode kad_addr.peerid = none)
    (hpending : s.isPendingNode kad_addr.peerid = false)
    (hidx : s.getBucketIdx kad_addr.peerid = s.getBucketIdx peerid) :
    ∃ s', s.pingStart peerid kad_addr true = some s' ∧ s'.Sound ∧ Frame s s' ∧
      ∀ q, (s.getBucknode q).isSome → (s'.getBucknode q).isSome := by
  obtain ⟨s', hstart, hframe, hlinked, hlist, hget⟩ :=
    Kbucket.pingStart_spec h.linked hnode hping hpending
  refine ⟨s', hstart, ?_, hframe, ?_⟩
  · apply h.of_frame hframe hlinked
    have htable : s'.table = s.table.check peerid kad_addr.peerid := by
      ext1
      · exact table_node_update hget
      · exact table_list_congr hlist
    have hchecked : s.table.node peerid = some none := by
      show (s.getBucknode peerid).map _ = _
      have hsome := h.linked.ping_rpc_eq peerid node hnode
      rw [hping, eq_comm, Option.isSome_eq_false_iff, Option.isNone_iff_eq_none] at hsome
      rw [hnode, Option.map_some, hsome]
      rfl
    rw [htable]
    exact h.wf.check hchecked (table_node_eq_none.2 hnew) (h.linked.not_candidate hpending) hidx
  · intro q hq
    rw [hget]
    split_ifs
    · rfl
    · exact hq

theorem Sound.remove_spec (h : s.Sound) (hnode : (s.getBucknode peerid).isSome) :
    ∃ s', (do let s₁ ← s.remove (s.getBucketIdx peerid) peerid
              s₁.bucknodeDtor peerid) = some s' ∧
      s'.Sound ∧ Frame s s' ∧ ∀ q, s'.getBucknode q =
        if q = peerid then none else s.getBucknode q := by
  have hidx := h.placed.getBucketIdx_lt peerid
  rw [remove_eq hidx (h.mem_bucklist hnode)]
  have hremoved : (s.setBucklist (s.getBucketIdx peerid)
      ((s.bucklist (s.getBucketIdx peerid)).filter (· ≠ peerid))).Linked := h.linked.setBucklist
  obtain ⟨s', hdtor, hframe, hlinked, hlist, hget⟩ := bucknodeDtor_spec hremoved hnode
    fun q c c' hq hp heq => h.pendingOf_inj hq hp heq
  have hframe := (Frame.setBucklist s _ _).trans hframe
  refine ⟨s', hdtor, h.of_frame hframe hlinked ?_, hframe, hget⟩
  have htable : s'.table = s.table.remove s.getBucketIdx peerid := by
    ext1
    · exact table_node_update hget
    · rw [table_list_congr hlist, table_setBucklist hidx]
      rfl
  rw [htable]
  exact h.wf.remove

/-- A ping which succeeds. -/
theorem Sound.alive_spec (h : s.Sound) (hnode : s.getBucknode peerid = some node)
    (hpending : node.pending_node = some kad_addr) :
    ∃ s', (do let s₁ ← s.update (s.getBucketIdx peerid) peerid
              s₁.pingStop peerid) = some s' ∧
      s'.Sound ∧ Frame s s' ∧ ∀ q, (s.getBucknode q).isSome → (s'.getBucknode q).isSome := by
  have hsome : (s.getBucknode peerid).isSome := by
    rw [hnode]
    rfl
  obtain ⟨s₁, hupdate, hsound, hframe, hget⟩ := h.update_spec hsome
  have hnode₁ : s₁.getBucknode peerid = some node := (hget peerid).trans hnode
  have hown : s₁.pendingOf peerid = some kad_addr := by
    rw [pendingOf, hnode₁]
    exact hpending
  obtain ⟨s', hstop, hframe', hlinked, hlist, hget'⟩ := pingStop_spec hsound.linked hnode₁ hpending
    fun q c hc heq => hsound.pendingOf_inj hc hown heq
  rw [hupdate]
  refine ⟨s', hstop, hsound.of_frame hframe' hlinked ?_, hframe.trans hframe', ?_⟩
  · have htable : s'.table = s₁.table.uncheck peerid := by
      ext1
      · exact table_node_update hget'
      · exact table_list_congr hlist
    rw [htable]
    apply hsound.wf.uncheck
    rw [table_node_isSome, hnode₁]
    rfl
  · intro q hq
    rw [hget', hget]
    split_ifs
    · rfl
    · exact hq

/-- A node takes the place of another one of its bucket. -/
theorem remove_insert_eq {c : KadId} (hidx : s.getBucketIdx peerid < s.bucklist_db.length)
    (hmem : peerid ∈ s.bucklist (s.getBucketIdx peerid))
    (hsame : s.getBucketIdx c = s.getBucketIdx peerid)
    (hnot : c ∉ s.bucklist (s.getBucketIdx peerid))
    (hlen : (s.bucklist (s.getBucketIdx peerid)).length ≤ s.kbucket_height) :
    (s.remove (s.getBucketIdx peerid) peerid).bind (fun s₁ => s₁.insert (s.getBucketIdx peerid) c) =
      some (s.setBucklist (s.getBucketIdx peerid)
        ((s.bucklist (s.getBucketIdx peerid)).filter (· ≠ peerid) ++ [c])) := by
  obtain ⟨s₁, hs₁⟩ : ∃ s₁, s₁ = s.setBucklist (s.getBucketIdx peerid)
      ((s.bucklist (s.getBucketIdx peerid)).filter (· ≠ peerid)) := ⟨_, rfl⟩
  have hframe : Frame s s₁ := hs₁ ▸ Frame.setBucklist s _ _
  have hlist : s₁.bucklist (s.getBucketIdx peerid) =
      (s.bucklist (s.getBucketIdx peerid)).filter (· ≠ peerid) := by
    rw [hs₁]
    refine (congrFun (bucklist_setBucklist hidx) _).trans ?_
    rw [Function.update_self]
  have hlt : ((s.bucklist (s.getBucketIdx peerid)).filter (· ≠ peerid)).length <
      s.kbucket_height := by
    apply Nat.lt_of_lt_of_le _ hlen
    exact List.length_filter_lt_length_iff_exists.2 ⟨peerid, hmem, by simp⟩
  have hc : s₁.getBucketIdx c = s.getBucketIdx peerid := by
    rw [hframe.getBucketIdx, hsame]
  rw [remove_eq hidx hmem, ← hs₁, Option.bind_some, ← hc, insert_eq]
  · rw [hc, hlist, setBucklist, hs₁]
    simp only [setBucklist, List.set_set]
  · rw [hc, hframe.length]
    exact hidx
  · rw [hc, hlist]
    exact fun hin => hnot (List.mem_of_mem_filter hin)
  · rw [hc, hlist, hframe.kbucket_height]
    exact hlt

/-- A ping which fails: the node is replaced by its pending node. -/
theorem Sound.dead_spec (h : s.Sound) (hnode : s.getBucknode peerid = some node)
    (hpending : node.pending_node = some kad_addr) :
    ∃ s', (do let s₁ ← s.bucknodeCtor kad_addr
              let s₂ ← s₁.remove (s₁.getBucketIdx peerid) peerid
              let s₃ ← s₂.insert (s₁.getBucketIdx peerid) kad_addr.peerid
              s₃.bucknodeDtor peerid) = some s' ∧
      s'.Sound ∧ Frame s s' ∧
        ∀ q, q ≠ peerid → (s.getBucknode q).isSome → (s'.getBucknode q).isSome := by
  have hown : s.pendingOf peerid = some kad_addr := by
    rw [pendingOf, hnode]
    exact hpending
  have hcand : s.table.node peerid = some (some kad_addr.peerid) :=
    table_node_eq_some.2 ⟨kad_addr, hown, rfl⟩
  have hnew : s.getBucknode kad_addr.peerid = none :=
    table_node_eq_none.1 (h.wf.fresh _ _ hcand)
  have hsame : s.getBucketIdx kad_addr.peerid = s.getBucketIdx peerid := h.wf.same _ _ hcand
  have hsome : (s.getBucknode peerid).isSome := by
    rw [hnode]
    rfl
  -- the new node is in the map from here on
  obtain ⟨s₁, hctor, hframe₁, hlinked₁, hlist₁, hget₁⟩ := bucknodeCtor_spec h.linked hnew
  have hpending₁ : ∀ q c, s₁.pendingOf q = some c → s.pendingOf q = some c := by
    intro q c hq
    rw [pendingOf, hget₁] at hq
    split_ifs at hq
    · cases hq
    · exact hq
  -- the old one makes room for it in the bucket list
  have hidx : s₁.getBucketIdx peerid < s₁.bucklist_db.length := by
    rw [hframe₁.getBucketIdx, hframe₁.length]
    exact h.placed.getBucketIdx_lt peerid
  have hmem : peerid ∈ s₁.bucklist (s₁.getBucketIdx peerid) := by
    rw [bucklist_congr hlist₁, hframe₁.getBucketIdx]
    exact h.mem_bucklist hsome
  have hidx₂ : s₁.getBucketIdx kad_addr.peerid = s₁.getBucketIdx peerid := by
    rw [hframe₁.getBucketIdx, hsame]
  have hnot : kad_addr.peerid ∉ s₁.bucklist (s₁.getBucketIdx peerid) := by
    rw [bucklist_congr hlist₁]
    intro hin
    have hin := ((h.placed.mem_iff _ _).1 hin).1
    rw [hnew] at hin
    cases hin
  have hlen : (s₁.bucklist (s₁.getBucketIdx peerid)).length ≤ s₁.kbucket_height := by
    rw [bucklist_congr hlist₁, hframe₁.kbucket_height]
    exact h.wf.length_le _
  have hswap := remove_insert_eq hidx hmem hidx₂ hnot hlen
  obtain ⟨s₃, hs₃⟩ : ∃ s₃, s₃ = s₁.setBucklist (s₁.getBucketIdx peerid)
      ((s₁.bucklist (s₁.getBucketIdx peerid)).filter (· ≠ peerid) ++ [kad_addr.peerid]) := ⟨_, rfl⟩
  have hne : peerid ≠ kad_addr.peerid := by
    rintro heq
    rw [heq, hnew] at hnode
    cases hnode
  have hlinked₃ : s₃.Linked := hs₃ ▸ hlinked₁.setBucklist
  have hget₃ : ∀ q, s₃.getBucknode q =
      if q = kad_addr.peerid then some ⟨kad_addr, false, none⟩ else s.getBucknode q := hs₃ ▸ hget₁
  obtain ⟨s', hdtor, hframe', hlinked', hlist', hget'⟩ := bucknodeDtor_spec hlinked₃
    (by rw [hget₃, if_neg hne]; exact hsome) fun q c c' hq hp heq => by
      rw [hs₃] at hq hp
      exact h.pendingOf_inj (hpending₁ q c hq) (hpending₁ peerid c' hp) heq
  have hframe : Frame s s' := hframe₁.trans ((hs₃ ▸ Frame.setBucklist s₁ _ _).trans hframe')
  refine ⟨s', ?_, h.of_frame hframe hlinked' ?_, hframe, ?_⟩
  · show ((s.bucknodeCtor kad_addr).bind fun s₁ => (s₁.remove (s₁.getBucketIdx peerid) peerid).bind
      fun s₂ => (s₂.insert (s₁.getBucketIdx peerid) kad_addr.peerid).bind
      fun s₃ => s₃.bucknodeDtor peerid) = some s'
    rw [hctor, Option.bind_some, ← Option.bind_assoc, hswap, Option.bind_some, ← hs₃]
    exact hdtor
  · have htable : s'.table =
        (s.table.remove s.getBucketIdx peerid).add s.getBucketIdx kad_addr.peerid := by
      ext1
      · show _ = Function.update (Function.update s.table.node peerid none) kad_addr.peerid _
        rw [table_node_update hget', table_node_update hget₃, Function.update_comm hne]
        rfl
      · rw [table_list_congr hlist', hs₃, table_setBucklist hidx, table_list_congr hlist₁,
          Ktable.list_add_remove hsame, hframe₁.getBucketIdx, bucklist_congr hlist₁]
        rfl
    rw [htable]
    exact h.wf.replace hcand
  · intro q hq hold
    rw [hget', if_neg hq, hget₃]
    split_ifs
    · rfl
    · exact hold

/-! ### The handlers -/

theorem getFirstNotpinging_eq_some {bucklist : List KadId}
    (h : s.getFirstNotpinging bucklist = some peerid) :
    peerid ∈ bucklist ∧ ∃ node, s.getBucknode peerid = some node ∧ node.ping_rpc = false := by
  rw [getFirstNotpinging] at h
  have hany := List.find?_some h
  obtain ⟨node, hnode, hping⟩ := (Option.any_eq_true _ _).1 hany
  rw [Bool.not_eq_true'] at hping
  exact ⟨List.mem_of_find?_eq_some h, node, hnode, hping⟩

theorem Sound.notifySrckaddr_spec (h : s.Sound) (kad_addr : KadAddr) (start_ok : Bool) :
    ∃ s', s.notifySrckaddr kad_addr start_ok = some s' ∧ s'.Sound ∧ Frame s s' ∧
      ∀ q, (s.getBucknode q).isSome → (s'.getBucknode q).isSome := by
  have hstay : ∃ s', some s = some s' ∧ s'.Sound ∧ Frame s s' ∧
      ∀ q, (s.getBucknode q).isSome → (s'.getBucknode q).isSome :=
    ⟨s, rfl, h, Frame.refl s, fun q hq => hq⟩
  rw [notifySrckaddr, getElem?_bucklist_db (h.placed.getBucketIdx_lt kad_addr.peerid)]
  by_cases hpending : s.isPendingNode kad_addr.peerid = true
  · rw [if_pos hpending]
    exact hstay
  rw [if_neg hpending]
  by_cases hnode : (s.getBucknode kad_addr.peerid).isSome = true
  · rw [if_pos hnode]
    obtain ⟨s', hupdate, hsound, hframe, hget⟩ := h.update_spec hnode
    refine ⟨s', hupdate, hsound, hframe, fun q hq => ?_⟩
    rw [hget]
    exact hq
  rw [if_neg hnode]
  rw [Bool.not_eq_true] at hpending
  rw [Option.not_isSome_iff_eq_none] at hnode
  by_cases hlen : (s.bucklist (s.getBucketIdx kad_addr.peerid)).length < s.kbucket_height
  · obtain ⟨s', hadd, hsound, hframe, hget⟩ := h.add_spec hnode hpending hlen
    refine ⟨s', (if_pos hlen).trans hadd, hsound, hframe, fun q hq => ?_⟩
    rw [hget]
    split_ifs
    · rfl
    · exact hq
  -- the bucket is full
  simp only [if_neg hlen]
  rcases hfirst : s.getFirstNotpinging (s.bucklist (s.getBucketIdx kad_addr.peerid)) with - | peerid
  · exact hstay
  · obtain ⟨hmem, node, hfound, hping⟩ := getFirstNotpinging_eq_some hfirst
    cases start_ok with
    | true =>
      have hidx := ((h.placed.mem_iff _ _).1 hmem).2
      exact h.pingStart_spec hfound hping hnode hpending hidx.symm
    | false =>
      have hfail : s.pingStart peerid kad_addr false = some s := by
        rw [pingStart, hfound]
        simp [hping]
      simp only [hfail]
      exact hstay

theorem Sound.pingRpcCb_spec (h : s.Sound) (peerid : KadId) (is_fatal : Bool) :
    ∃ s', s.pingRpcCb peerid is_fatal = some s' ∧ s'.Sound ∧ Frame s s' ∧
      ∀ q, (s.getBucknode q).isSome → s'.getBucknode q = none → q = peerid ∧ is_fatal = true ∧
        ∃ node, s.getBucknode q = some node ∧ node.ping_rpc = true := by
  have hstay : ∃ s', some s = some s' ∧ s'.Sound ∧ Frame s s' ∧
      ∀ q, (s.getBucknode q).isSome → s'.getBucknode q = none → q = peerid ∧ is_fatal = true ∧
        ∃ node, s.getBucknode q = some node ∧ node.ping_rpc = true := by
    refine ⟨s, rfl, h, Frame.refl s, fun q hq hnone => ?_⟩
    rw [hnone] at hq
    cases hq
  rw [pingRpcCb]
  rcases hnode : s.getBucknode peerid with - | node
  · exact hstay
  by_cases hping : node.ping_rpc = true
  · have hsome := h.linked.ping_rpc_eq peerid node hnode
    rw [hping, eq_comm, Option.isSome_iff_exists] at hsome
    obtain ⟨kad_addr, hpending⟩ := hsome
    simp only [hping, hpending, Bool.not_true, Bool.false_eq_true, if_false]
    cases is_fatal with
    | true =>
      obtain ⟨s', hdead, hsound, hframe, hget⟩ := h.dead_spec hnode hpending
      refine ⟨s', hdead, hsound, hframe, fun q hq hnone => ?_⟩
      have heq : q = peerid := by
        by_contra hne
        have hq' := hget q hne hq
        rw [hnone] at hq'
        cases hq'
      subst heq
      exact ⟨rfl, rfl, node, hnode, hping⟩
    | false =>
      obtain ⟨s', halive, hsound, hframe, hget⟩ := h.alive_spec hnode hpending
      refine ⟨s', halive, hsound, hframe, fun q hq hnone => ?_⟩
      have hq' := hget q hq
      rw [hnone] at hq'
      cases hq'
  · simp only [hping]
    exact hstay

/-- Only the peers of the list are deleted. -/
theorem Sound.deleteLoop_spec (peerids : List KadId) {s : Kbucket} (h : s.Sound) :
    ∃ s', deleteLoop peerids s = some s' ∧ s'.Sound ∧ Frame s s' ∧
      ∀ q, (s.getBucknode q).isSome → s'.getBucknode q = none → q ∈ peerids := by
  induction peerids generalizing s with
  | nil =>
    refine ⟨s, rfl, h, Frame.refl s, fun q hq hnone => ?_⟩
    rw [hnone] at hq
    cases hq
  | cons peerid peerids ih =>
    rw [deleteLoop, getElem?_bucklist_db (h.placed.getBucketIdx_lt peerid)]
    by_cases hmem : peerid ∈ s.bucklist (s.getBucketIdx peerid)
    · have hsome := ((h.placed.mem_iff _ _).1 hmem).1
      obtain ⟨s₁, hremove, hsound, hframe, hget⟩ := h.remove_spec hsome
      obtain ⟨s', hloop, hsound', hframe', hlost⟩ := ih hsound
      refine ⟨s', ?_, hsound', hframe.trans hframe', fun q hq hnone => ?_⟩
      · show (if peerid ∈ s.bucklist (s.getBucketIdx peerid) then
          (s.remove (s.getBucketIdx peerid) peerid).bind fun s₁ =>
            (s₁.bucknodeDtor peerid).bind fun s₂ => deleteLoop peerids s₂
          else _) = some s'
        rw [if_pos hmem, ← Option.bind_assoc]
        exact (congrArg (fun o => Option.bind o (deleteLoop peerids)) hremove).trans hloop
      · by_cases heq : q = peerid
        · exact heq ▸ List.mem_cons_self
        · apply List.mem_cons_of_mem
          apply hlost q _ hnone
          rw [hget, if_neg heq]
          exact hq
    · obtain ⟨s', hloop, hsound', hframe', hlost⟩ := ih h
      refine ⟨s', (if_neg hmem).trans hloop, hsound', hframe', fun q hq hnone => ?_⟩
      exact List.mem_cons_of_mem _ (hlost q hq hnone)

/-! ### Runs -/

/-- What the table is like in every state. -/
structure Valid (s : Kbucket) : Prop extends Placed s where
  height : ∀ bucket_idx, (s.bucklist bucket_idx).length ≤ s.kbucket_height
  /-- The pending nodes are those of the pinged nodes, under their peer ids. -/
  pending_iff : ∀ c kad_addr, (c, kad_addr) ∈ s.pending_node_db ↔ kad_addr.peerid = c ∧
    ∃ peerid node, s.getBucknode peerid = some node ∧ node.ping_rpc = true ∧
      node.pending_node = some kad_addr
  pending_of_ping : ∀ peerid node, s.getBucknode peerid = some node → node.ping_rpc = true →
    node.pending_node.isSome
  /-- The peer ids are distinct. -/
  pending_keyed : Omap.Keyed s.pending_node_db
  pending_inj : ∀ p q node node' c c', s.getBucknode p = some node → s.getBucknode q = some node' →
    node.pending_node = some c → node'.pending_node = some c' → c.peerid = c'.peerid → p = q
  pending_fresh : ∀ c kad_addr, (c, kad_addr) ∈ s.pending_node_db → s.getBucknode c = none

theorem pendingOf_eq_some : s.pendingOf peerid = some kad_addr ↔
    ∃ node, s.getBucknode peerid = some node ∧ node.pending_node = some kad_addr :=
  Option.bind_eq_some_iff

theorem Sound.valid (h : s.Sound) : s.Valid where
  toPlaced := h.placed
  height := h.wf.length_le
  pending_iff c kad_addr := by
    rw [← Omap.find_eq_some h.linked.pending_keyed, h.linked.pending_iff]
    apply and_congr_right'
    apply exists_congr
    intro peerid
    rw [pendingOf_eq_some]
    apply exists_congr
    intro node
    apply and_congr_right
    intro hnode
    refine ⟨fun hpending => ⟨?_, hpending⟩, fun hboth => hboth.2⟩
    rw [h.linked.ping_rpc_eq peerid node hnode, hpending]
    rfl
  pending_of_ping peerid node hnode hping := by
    rw [← h.linked.ping_rpc_eq peerid node hnode]
    exact hping
  pending_keyed := h.linked.pending_keyed
  pending_inj p q node node' c c' hp hq hc hc' heq :=
    h.pendingOf_inj (pendingOf_eq_some.2 ⟨node, hp, hc⟩) (pendingOf_eq_some.2 ⟨node', hq, hc'⟩) heq
  pending_fresh c kad_addr hmem := by
    rw [← Omap.find_eq_some h.linked.pending_keyed, h.linked.pending_iff] at hmem
    obtain ⟨rfl, peerid, hpending⟩ := hmem
    apply table_node_eq_none.1
    exact h.wf.fresh peerid _ (table_node_eq_some.2 ⟨kad_addr, hpending, rfl⟩)

/-- A failed rpc to the peer is among the events, and it is not one which has timed out too early
to count. -/
def RpcFailed (delay : ℕ) (peerid : KadId) (events : List KbucketEvent) : Prop :=
  ∃ is_timedout expire_delay, .notifyFailedRpc peerid is_timedout expire_delay ∈ events ∧
    ¬(is_timedout = true ∧ expire_delay < delay)

/-- Why an event may evict a node. -/
def Evictable (s : Kbucket) (events : List KbucketEvent) (e : KbucketEvent) (peerid : KadId) :
    Prop :=
  (e = .pingRpcCb peerid true ∧
      ∃ node, s.getBucknode peerid = some node ∧ node.ping_rpc = true) ∨
    (e = .zerotimer ∧ RpcFailed s.delete_timedout_rpc_min_delay peerid events)

/-- The invariant of a run: a peer which waits to be deleted is one which a rpc has failed to. -/
structure Inv (events : List KbucketEvent) (s : Kbucket) : Prop where
  sound : s.Sound
  todelete : ∀ peerid ∈ s.peerid_todelete_db,
    RpcFailed s.delete_timedout_rpc_min_delay peerid events

theorem RpcFailed.append {delay : ℕ} {events : List KbucketEvent}
    (h : RpcFailed delay peerid events) (e : KbucketEvent) :
    RpcFailed delay peerid (events ++ [e]) := by
  obtain ⟨is_timedout, expire_delay, hmem, hcount⟩ := h
  exact ⟨is_timedout, expire_delay, List.mem_append_left _ hmem, hcount⟩

theorem Inv.of_frame {events : List KbucketEvent} (h : Inv events s) (hsound : s'.Sound)
    (hframe : Frame s s') (e : KbucketEvent) : Inv (events ++ [e]) s' where
  sound := hsound
  todelete peerid hmem := by
    rw [hframe.todelete] at hmem
    rw [hframe.delay]
    exact (h.todelete peerid hmem).append e

/-- **One event**: no assertion fails, and what is evicted may be. -/
theorem Inv.handle {events : List KbucketEvent} (h : Inv events s) (e : KbucketEvent) :
    ∃ s', s.handle e = some s' ∧ Inv (events ++ [e]) s' ∧
      ∀ q, (s.getBucknode q).isSome → s'.getBucknode q = none → Evictable s events e q := by
  -- where no node is lost there is nothing to explain
  have hkept : ∀ s' : Kbucket, (∀ q, (s.getBucknode q).isSome → (s'.getBucknode q).isSome) →
      ∀ q, (s.getBucknode q).isSome → s'.getBucknode q = none → Evictable s events e q := by
    intro s' hget q hq hnone
    have hq' := hget q hq
    rw [hnone] at hq'
    cases hq'
  cases e with
  | notifySrckaddr kad_addr start_ok =>
    obtain ⟨s', heq, hsound, hframe, hget⟩ := h.sound.notifySrckaddr_spec kad_addr start_ok
    exact ⟨s', heq, h.of_frame hsound hframe _, hkept s' hget⟩
  | pingRpcCb peerid is_fatal =>
    obtain ⟨s', heq, hsound, hframe, hlost⟩ := h.sound.pingRpcCb_spec peerid is_fatal
    refine ⟨s', heq, h.of_frame hsound hframe _, fun q hq hnone => ?_⟩
    obtain ⟨rfl, rfl, hping⟩ := hlost q hq hnone
    exact Or.inl ⟨rfl, hping⟩
  | notifyFailedRpc peerid is_timedout expire_delay =>
    refine ⟨_, rfl, ?_, hkept _ fun q hq => ?_⟩
    · rw [notifyFailedRpc]
      split_ifs with hearly
      · exact h.of_frame h.sound (Frame.refl s) _
      · refine ⟨⟨h.sound.width, ⟨h.sound.linked.1, h.sound.linked.2, h.sound.linked.3,
          h.sound.linked.4, h.sound.linked.5⟩, h.sound.wf⟩, fun q hq => ?_⟩
        rcases List.mem_append.1 hq with hq | hq
        · exact (h.todelete q hq).append _
        · obtain rfl := List.mem_singleton.1 hq
          exact ⟨is_timedout, expire_delay, by simp, hearly⟩
    · rw [notifyFailedRpc]
      split_ifs <;> exact hq
  | zerotimer =>
    show ∃ s', s.zerotimerExpire = some s' ∧ _
    rw [zerotimerExpire]
    split_ifs with htimer
    · have hclear : Sound { s with
          peerid_todelete_db := []
          peerid_todelete_zerotimer := false } :=
        ⟨h.sound.width, ⟨h.sound.linked.1, h.sound.linked.2, h.sound.linked.3,
          h.sound.linked.4, h.sound.linked.5⟩, h.sound.wf⟩
      obtain ⟨s', heq, hsound, hframe, hlost⟩ := hclear.deleteLoop_spec s.peerid_todelete_db
      refine ⟨s', heq, ⟨hsound, fun q hq => ?_⟩, fun q hq hnone => ?_⟩
      · rw [hframe.todelete] at hq
        cases hq
      · exact Or.inr ⟨rfl, h.todelete q (hlost q hq hnone)⟩
    · exact ⟨s, rfl, h.of_frame h.sound (Frame.refl s) _, hkept s fun q hq => hq⟩

/-- The table before the local peer is in it. -/
theorem sound_empty (local_addr : KadAddr) (kbucket_width : ℕ)
    (hwidth : KAD_ID_NBIT / kbucket_width * kbucket_width = KAD_ID_NBIT)
    (nb_replication delay : ℕ) : Sound
      { local_peerid := local_addr.peerid
        kbucket_width := kbucket_width
        kbucket_height := nb_replication
        delete_timedout_rpc_min_delay := delay
        bucklist_db := List.replicate (KAD_ID_NBIT / kbucket_width) []
        bucknode_db := []
        pending_node_db := []
        peerid_todelete_db := []
        peerid_todelete_zerotimer := false } := by
  have hlist : ∀ i, (List.replicate (KAD_ID_NBIT / kbucket_width) ([] : List KadId)).getD i [] =
      [] := by
    intro i
    rw [List.getD_eq_getElem?_getD, List.getElem?_replicate]
    split_ifs <;> rfl
  constructor
  case width =>
    rw [List.length_replicate]
    exact hwidth
  case linked =>
    constructor
    case keyed => exact List.nodup_nil
    case peerid_eq => rintro peerid node ⟨⟩
    case ping_rpc_eq => rintro peerid node ⟨⟩
    case pending_keyed => exact List.nodup_nil
    case pending_iff =>
      intro c kad_addr
      constructor
      · rintro ⟨⟩
      · rintro ⟨-, peerid, ⟨⟩⟩
  case wf =>
    constructor
    case nodup =>
      intro i
      show (List.getD _ i []).Nodup
      rw [hlist]
      exact List.nodup_nil
    case mem_iff =>
      intro i peerid
      show peerid ∈ List.getD _ i [] ↔ false = true ∧ _
      rw [hlist]
      simp
    case length_le =>
      intro i
      show (List.getD _ i []).length ≤ _
      rw [hlist]
      exact Nat.zero_le _
    case fresh => rintro peerid c ⟨⟩
    case inj => rintro p q c ⟨⟩
    case same => rintro peerid c ⟨⟩

theorem ctor_inv (local_addr : KadAddr) (kbucket_width : ℕ)
    (hwidth : KAD_ID_NBIT / kbucket_width * kbucket_width = KAD_ID_NBIT)
    (nb_replication delay : ℕ) :
    ∃ s, ctor local_addr kbucket_width nb_replication delay = some s ∧ Inv [] s := by
  rw [ctor, if_pos hwidth]
  obtain ⟨s, hnotify, hsound, hframe, -⟩ :=
    (sound_empty local_addr kbucket_width hwidth nb_replication delay).notifySrckaddr_spec
      local_addr false
  refine ⟨s, hnotify, hsound, fun peerid hmem => ?_⟩
  rw [hframe.todelete] at hmem
  cases hmem

/-- **Reachable states**: the invariant holds after any events. -/
theorem run_inv (local_addr : KadAddr) (kbucket_width : ℕ)
    (hwidth : KAD_ID_NBIT / kbucket_width * kbucket_width = KAD_ID_NBIT)
    (nb_replication delay : ℕ) (events : List KbucketEvent) :
    ∃ s, run step (ctor local_addr kbucket_width nb_replication delay) events = some s ∧
      Inv events s := by
  induction events using List.reverseRecOn with
  | nil => exact ctor_inv local_addr kbucket_width hwidth nb_replication delay
  | append_singleton events e ih =>
    obtain ⟨s, hrun, hinv⟩ := ih
    obtain ⟨s', hhandle, hinv', -⟩ := hinv.handle e
    refine ⟨s', ?_, hinv'⟩
    rw [run_append, hrun]
    exact hhandle

/-- **The routing table**: in every state which a run reaches no assertion has failed, the table is
valid, and the next event evicts only what it may. -/
theorem run_valid (local_addr : KadAddr) (kbucket_width nb_replication delay : ℕ)
    (hwidth : KAD_ID_NBIT / kbucket_width * kbucket_width = KAD_ID_NBIT)
    (events : List KbucketEvent) :
    ∃ s, run step (ctor local_addr kbucket_width nb_replication delay) events = some s ∧
      s.Valid ∧ ∀ e, ∃ s', s.handle e = some s' ∧
        ∀ peerid, (s.getBucknode peerid).isSome → s'.getBucknode peerid = none →
          Evictable s events e peerid := by
  obtain ⟨s, hrun, hinv⟩ := run_inv local_addr kbucket_width hwidth nb_replication
    delay events
  refine ⟨s, hrun, hinv.sound.valid, fun e => ?_⟩
  obtain ⟨s', hhandle, -, hevict⟩ := hinv.handle e
  exact ⟨s', hhandle, hevict⟩

def sampleAddr (peerid : KadId) : KadAddr := ⟨(0x7f000001, 4662), peerid⟩

/-- Two peers of one bucket, which has room for one of them. -/
def sampleEvents : List KbucketEvent :=
  [.notifySrckaddr (sampleAddr 20) true, .notifySrckaddr (sampleAddr 21) true]

theorem run_valid_sample : KAD_ID_NBIT / 1 * 1 = KAD_ID_NBIT ∧
    ∃ s, run step (ctor (sampleAddr 16) 1 1 5000) sampleEvents = some s ∧
      s.Valid ∧ ∀ e, ∃ s', s.handle e = some s' ∧
        ∀ peerid, (s.getBucknode peerid).isSome → s'.getBucknode peerid = none →
          Evictable s sampleEvents e peerid :=
  ⟨by decide, run_valid (sampleAddr 16) 1 1 5000 (by decide) sampleEvents⟩

-- the second peer takes the place of the first one, whose ping fails
example : (run step (ctor (sampleAddr 16) 1 1 5000)
    (sampleEvents ++ [.pingRpcCb 20 true])).map (fun s => (s.bucklist 2, s.pending_node_db)) =
      some ([21], []) := by
  decide

end Kbucket

end Neoip
