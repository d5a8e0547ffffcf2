/-
Neoip/KadNsearch.lean

The node search of Kademlia: `kad_nsearch_t`, with its list of learned nodes
`kad_nsearch_llist_t`.

The learned nodes are in a map by their distance to the target.  A node is
considered offline when it failed, or when it is queried since longer than the
soft timeout; of the others the `n_closest` nearest ones are considered.  The
next node to query is the nearest one of these which has not been queried, and
the search is completed when all of them have replied.

What may happen to a search is an event: an rpc ends, time goes by, the timer
of the search expires.  An event in which queries are started says of each node
whether its query can be.  The caller deletes the search when it is notified,
so that nothing happens to it then.  What is cached of the records is left out, and
so are the assertions: the runs are those of the build without them.

A notified result is as it should be.  But a search is only looked at when an
rpc ends: when all the queries which are launched fail to start, nothing is in
flight, and nobody is notified.

Main result: `searches_iff`.
-/
import Neoip.KadRec
import Neoip.Nearest
import Neoip.Run
import Mathlib.Logic.Function.Iterate

namespace Neoip

/-- What a search reads of its profile. -/
structure NsearchCfg where
  nb_concurrent_req : ℕ
  rpccli_soft_timeout : ℕ

/-- What a node has answered. -/
inductive LnodeState
  | null
  | querying
  | succeed
  | failed
deriving DecidableEq, Repr

/-- `kad_nsearch_lnode_t`. -/
structure Lnode where
  kad_addr : KadAddr
  state : LnodeState
  rpc_birthdate : ℕ
  cookie_id : ℕ
deriving DecidableEq, Repr

/-- `kad_caddr_t`. -/
structure KadCaddr where
  kad_addr : KadAddr
  cookie_id : ℕ
deriving DecidableEq, Repr

def Lnode.toCaddr (lnode : Lnode) : KadCaddr := ⟨lnode.kad_addr, lnode.cookie_id⟩

/-- What the caller is notified of. -/
inductive NsearchEvent
  | caddrArr (result : List KadCaddr)
  | recdups (dups : KadRecdups) (has_more_record : Bool)
  | timedout

/-- `is_findnode` is the query type: FINDNODE if it is true, FINDSOMEVAL if not. -/
structure Nsearch where
  target_id : KadId
  n_closest : ℕ
  is_findnode : Bool
  lnode_db : List (KadId × Lnode)
  nb_succ_useless_query : ℕ
  present : ℕ
  notified : Option NsearchEvent

/-- How an rpc ends. -/
inductive NsearchReply
  | fatal
  | addrArr (kad_addr_arr : List KadAddr) (cookie_id : ℕ)
  | recdups (dups : KadRecdups) (has_more_record : Bool)

/-- The answers of the nodes, and time. -/
inductive NsearchEv
  | rpc (peerid : KadId) (reply : NsearchReply) (starts : KadId → Bool)
  | elapse (delay : ℕ)
  | expire

namespace Nsearch

variable (cfg : NsearchCfg)

def distid (kad_addr : KadAddr) (s : Nsearch) : KadId := kad_addr.peerid ^^^ s.target_id

/-! ### The considered nodes -/

/-- `is_offline`. -/
def isOffline (lnode : Lnode) (s : Nsearch) : Bool :=
  lnode.state = .failed
    || lnode.state = .querying && cfg.rpccli_soft_timeout < s.present - lnode.rpc_birthdate

/-- The loop of the functions which consider the nodes: one which is offline is skipped, and the
loop ends when more than `n_closest` of the others have been counted. -/
def consideredLoop (offline : Lnode → Bool) (n_closest : ℕ) :
    ℕ → List (KadId × Lnode) → List (KadId × Lnode)
  | _, [] => []
  | nb_considered, e :: lnode_db =>
    if offline e.2 then consideredLoop offline n_closest nb_considered lnode_db
    else if n_closest < nb_considered + 1 then []
    else e :: consideredLoop offline n_closest (nb_considered + 1) lnode_db

/-- The nodes whose turn comes in that loop. -/
def considered (s : Nsearch) : List (KadId × Lnode) :=
  consideredLoop (s.isOffline cfg) s.n_closest 0 s.lnode_db

/-- `get_nclosest_distid`. -/
def getNclosestDistid (s : Nsearch) : List KadId := (s.considered cfg).map Prod.fst

/-- `get_next_lnode_to_query`. -/
def getNextLnodeToQuery (s : Nsearch) : Option (KadId × Lnode) :=
  (s.considered cfg).find? fun e => e.2.state = .null

/-- `get_nb_querying_node`. -/
def getNbQueryingNode (s : Nsearch) : ℕ := (s.considered cfg).countP fun e => e.2.state = .querying

/-- `nsearch_is_completed`. -/
def nsearchIsCompleted (s : Nsearch) : Bool :=
  (s.considered cfg).all fun e => e.2.state = .succeed

/-! ### Learning nodes -/

/-- A node is linked, unless it is there. -/
def lnodeLink (kad_addr : KadAddr) (s : Nsearch) : Nsearch :=
  { s with
    lnode_db := Omap.insert ltKadId (s.distid kad_addr) ⟨kad_addr, .null, 0, 0⟩ s.lnode_db }

/-- `merge_addr_arr`, and whether the nodes to be considered are not the same after it. -/
def mergeAddrArr (kad_addr_arr : List KadAddr) (s : Nsearch) : Bool × Nsearch :=
  let nclosest_distid_before := s.getNclosestDistid cfg
  let s := kad_addr_arr.foldl (fun s kad_addr => s.lnodeLink kad_addr) s
  (nclosest_distid_before ≠ s.getNclosestDistid cfg, s)

/-- `process_replied_addr_arr`. -/
def processRepliedAddrArr (kad_addr_arr : List KadAddr) (s : Nsearch) : Nsearch :=
  let (got_closer_node, s) := s.mergeAddrArr cfg kad_addr_arr
  { s with nb_succ_useless_query := if got_closer_node then 0 else s.nb_succ_useless_query + 1 }

/-! ### Querying nodes -/

/-- The node of this distance is changed. -/
def setLnode (distid : KadId) (f : Lnode → Lnode) (s : Nsearch) : Nsearch :=
  { s with lnode_db := s.lnode_db.map fun e => if e.1 = distid then (e.1, f e.2) else e }

/-- `kad_nsearch_lnode_t::start`. -/
def lnodeStart (distid : KadId) (starts : Bool) (s : Nsearch) : Nsearch :=
  s.setLnode distid fun lnode =>
    { lnode with state := if starts then .querying else .failed, rpc_birthdate := s.present }

/-- Nodes are tried until the query of one is started; `fuel` is the number of tries. -/
def launchQuery (starts : KadId → Bool) : ℕ → Nsearch → Nsearch
  | 0, s => s
  | fuel + 1, s =>
    match s.getNextLnodeToQuery cfg with
    | none => s
    | some node =>
      let started := s.lnodeStart node.1 (starts node.2.kad_addr.peerid)
      if starts node.2.kad_addr.peerid then started else launchQuery starts fuel started

/-- No node is tried twice, so there are no more tries than nodes. -/
def launchQueries (max_nb_query : ℕ) (starts : KadId → Bool) (s : Nsearch) : Nsearch :=
  (fun s => s.launchQuery cfg starts (s.lnode_db.length + 1))^[max_nb_query] s

/-! ### The search -/

/-- `notify_callback`. -/
def notifyCallback (ev : NsearchEvent) (s : Nsearch) : Nsearch := { s with notified := some ev }

/-- The loop of `notify_findnode_result`, which ends when it has appended `n_closest` nodes. -/
def resultLoop (offline : Lnode → Bool) (n_closest : ℕ) :
    ℕ → List (KadId × Lnode) → List KadCaddr
  | _, [] => []
  | size, e :: lnode_db =>
    if offline e.2 then resultLoop offline n_closest size lnode_db
    else if size + 1 = n_closest then [e.2.toCaddr]
    else e.2.toCaddr :: resultLoop offline n_closest (size + 1) lnode_db

/-- `notify_end_result`. -/
def notifyEndResult (s : Nsearch) : Nsearch :=
  if s.is_findnode then
    s.notifyCallback (.caddrArr (resultLoop (s.isOffline cfg) s.n_closest 0 s.lnode_db))
  else s.notifyCallback (.recdups .empty false)

def nbWishedQuery (s : Nsearch) : ℕ :=
  if cfg.nb_concurrent_req ≤ s.nb_succ_useless_query then s.n_closest else cfg.nb_concurrent_req

/-- What `rpc_event_cb` does once the reply is handled. -/
def goOn (starts : KadId → Bool) (s : Nsearch) : Nsearch :=
  if s.nsearchIsCompleted cfg then s.notifyEndResult cfg
  else if s.nbWishedQuery cfg ≤ s.getNbQueryingNode cfg then s
  else s.launchQueries cfg (s.nbWishedQuery cfg - s.getNbQueryingNode cfg) starts

/-- What an rpc has told of its node. -/
def learn (distid : KadId) (reply : NsearchReply) (s : Nsearch) : Nsearch :=
  match reply with
  | .fatal => s.setLnode distid fun lnode => { lnode with state := .failed }
  | .addrArr kad_addr_arr cookie_id =>
    (s.setLnode distid fun lnode =>
      { lnode with state := .succeed, cookie_id := cookie_id }).processRepliedAddrArr cfg kad_addr_arr
  | .recdups _ _ => s.setLnode distid fun lnode => { lnode with state := .succeed }

/-- The records, which only a FINDSOMEVAL has in its reply, are forwarded at once. -/
def rpcEventCb (distid : KadId) (reply : NsearchReply) (starts : KadId → Bool) (s : Nsearch) :
    Nsearch :=
  match reply with
  | .recdups dups has_more_record =>
    if s.is_findnode then s
    else (s.learn cfg distid reply).notifyCallback (.recdups dups has_more_record)
  | _ => (s.learn cfg distid reply).goOn cfg starts

/-- The node of this peer is queried. -/
def isQuerying (peerid : KadId) (s : Nsearch) : Bool :=
  match Omap.find (peerid ^^^ s.target_id) s.lnode_db with
  | some lnode => lnode.state = .querying
  | none => false

/-- `post_start`. -/
def postStart (target_id : KadId) (n_closest : ℕ) (is_findnode : Bool)
    (init_addr_arr : List KadAddr) (starts : KadId → Bool) : Nsearch :=
  let s : Nsearch := ⟨target_id, n_closest, is_findnode, [], 0, 0, none⟩
  (s.mergeAddrArr cfg init_addr_arr).2.launchQueries cfg cfg.nb_concurrent_req starts

def step (s : Nsearch) (ev : NsearchEv) : Nsearch :=
  match s.notified with
  | some _ => s
  | none =>
    match ev with
    | .rpc peerid reply starts =>
      if s.isQuerying peerid then s.rpcEventCb cfg (peerid ^^^ s.target_id) reply starts else s
    | .elapse delay => { s with present := s.present + delay }
    | .expire => s.notifyCallback .timedout

/-! ### Sound searches -/

/-- Some query is in flight. -/
def InFlight (s : Nsearch) : Prop := ∃ e ∈ s.lnode_db, e.2.state = .querying

instance (s : Nsearch) : Decidable s.InFlight :=
  inferInstanceAs (Decidable (∃ e ∈ s.lnode_db, _))

/-- What the result of a FINDNODE search is. -/
structure NclosestResult (s : Nsearch) (result : List KadCaddr) : Prop where
  length_le : result.length ≤ s.n_closest
  sorted : result.Pairwise fun a b => s.distid a.kad_addr < s.distid b.kad_addr
  replied : ∀ caddr ∈ result, ∃ e ∈ s.lnode_db, e.2.toCaddr = caddr ∧ e.2.state = .succeed
  nearer : ∀ e ∈ s.lnode_db, e.2.toCaddr ∉ result →
    ∀ caddr ∈ result, s.distid e.2.kad_addr < s.distid caddr.kad_addr → s.isOffline cfg e.2 = true

/-- What a search owes to its caller. -/
structure Sound (s : Nsearch) : Prop where
  progress : s.notified = none → s.InFlight
  completed : ∀ result, s.notified = some (.caddrArr result) → s.nsearchIsCompleted cfg = true
  result : ∀ result, s.notified = some (.caddrArr result) → s.NclosestResult cfg result

/-- Some node can be queried, has not been, and fewer than `n_closest` nodes which replied are
nearer. -/
def Startable (starts : KadId → Bool) (s : Nsearch) : Prop :=
  ∃ e ∈ s.lnode_db, e.2.state = .null ∧ starts e.2.kad_addr.peerid = true
    ∧ s.lnode_db.countP (fun e' => e'.1 < e.1 ∧ e'.2.state = .succeed) < s.n_closest

/-- What an event needs: after the end of an rpc something else is in flight, or the search is
completed, or some query can be started. -/
def Guard (s : Nsearch) : NsearchEv → Prop
  | .rpc _ (.recdups _ _) _ => True
  | .rpc peerid reply starts => s.notified = none → s.isQuerying peerid = true →
      let s := s.learn cfg (peerid ^^^ s.target_id) reply
      s.InFlight ∨ s.nsearchIsCompleted cfg = true ∨ s.Startable starts
  | .elapse _ => True
  | .expire => True

/-! ### The loops -/

variable {cfg} {s : Nsearch} {starts : KadId → Bool} {node : KadId × Lnode}

theorem consideredLoop_eq (offline : Lnode → Bool) (n_closest nb_considered : ℕ)
    (lnode_db : List (KadId × Lnode)) : consideredLoop offline n_closest nb_considered lnode_db
      = (lnode_db.filter fun e => !offline e.2).take (n_closest - nb_considered) := by
  induction lnode_db generalizing nb_considered with
  | nil => simp [consideredLoop]
  | cons e lnode_db ih =>
    rw [consideredLoop]
    split_ifs with hoffline hlt
    · rw [List.filter_cons_of_neg (by simpa using hoffline), ih]
    · rw [Nat.sub_eq_zero_of_le (Nat.lt_succ_iff.1 hlt), List.take_zero]
    · have hsub : n_closest - nb_considered = n_closest - (nb_considered + 1) + 1 := by omega
      rw [List.filter_cons_of_pos (by simpa using hoffline), hsub, List.take_succ_cons, ih]

theorem resultLoop_eq (offline : Lnode → Bool) {n_closest size : ℕ} (hlt : size < n_closest)
    (lnode_db : List (KadId × Lnode)) : resultLoop offline n_closest size lnode_db
      = ((lnode_db.filter fun e => !offline e.2).take (n_closest - size)).map
          fun e => e.2.toCaddr := by
  induction lnode_db generalizing size with
  | nil => simp [resultLoop]
  | cons e lnode_db ih =>
    have hsub : n_closest - size = n_closest - (size + 1) + 1 := by omega
    rw [resultLoop]
    split_ifs with hoffline heq
    · rw [List.filter_cons_of_neg (by simpa using hoffline), ih hlt]
    · rw [List.filter_cons_of_pos (by simpa using hoffline), hsub, List.take_succ_cons, ← heq,
        Nat.sub_self, List.take_zero]
      rfl
    · rw [List.filter_cons_of_pos (by simpa using hoffline), hsub, List.take_succ_cons,
        List.map_cons, ih (by omega)]

variable (cfg) in
/-- The nodes which are not considered offline. -/
def online (s : Nsearch) : List (KadId × Lnode) :=
  s.lnode_db.filter fun e => !s.isOffline cfg e.2

theorem considered_eq : s.considered cfg = (s.online cfg).take s.n_closest :=
  consideredLoop_eq _ _ 0 _

theorem mem_of_mem_considered (h : node ∈ s.considered cfg) : node ∈ s.lnode_db := by
  rw [considered_eq] at h
  exact List.mem_of_mem_filter (List.mem_of_mem_take h)

/-! ### Searches as they are reached -/

/-- What a search keeps. -/
structure Inv (s : Nsearch) : Prop where
  distid : ∀ e ∈ s.lnode_db, e.1 = s.distid e.2.kad_addr
  sorted : s.lnode_db.Pairwise fun a b => a.1 < b.1
  wanted : s.InFlight → s.n_closest ≠ 0

theorem Inv.keyed (hinv : s.Inv) : Omap.Keyed s.lnode_db := by
  rw [Omap.Keyed, List.Nodup, List.pairwise_map]
  apply hinv.sorted.imp
  intro a b hlt heq
  exact BitVec.lt_irrefl _ (heq ▸ hlt)

theorem Inv.eq_of_distid (hinv : s.Inv) {a b : KadId × Lnode} (ha : a ∈ s.lnode_db)
    (hb : b ∈ s.lnode_db) (heq : a.1 = b.1) : a = b := by
  obtain ⟨k, a⟩ := a
  obtain ⟨k', b⟩ := b
  obtain rfl : k = k' := heq
  rw [hinv.keyed.eq ha hb]

/-! ### Launching queries -/

theorem getNext_spec (h : s.getNextLnodeToQuery cfg = some node) :
    node ∈ s.considered cfg ∧ node.2.state = .null :=
  ⟨List.mem_of_find?_eq_some h, by simpa using List.find?_some h⟩

theorem n_closest_ne_zero_of_mem (h : node ∈ s.considered cfg) : s.n_closest ≠ 0 := by
  intro h0
  rw [considered_eq, h0, List.take_zero] at h
  nomatch h

theorem not_offline_of_succeed {lnode : Lnode} (h : lnode.state = .succeed) :
    s.isOffline cfg lnode = false := by
  simp [isOffline, h]

theorem not_offline_of_null {lnode : Lnode} (h : lnode.state = .null) :
    s.isOffline cfg lnode = false := by
  simp [isOffline, h]

/-- A considered node is behind fewer than `n_closest` nodes which replied. -/
theorem countP_lt_of_mem_considered (hinv : s.Inv) (h : node ∈ s.considered cfg) :
    s.lnode_db.countP (fun e => e.1 < node.1 ∧ e.2.state = .succeed) < s.n_closest := by
  rw [considered_eq] at h
  have hsorted : (s.online cfg).Pairwise fun a b => a.1.toNat < b.1.toNat :=
    hinv.sorted.sublist List.filter_sublist
  have hle : s.lnode_db.countP (fun e => e.1 < node.1 ∧ e.2.state = .succeed)
      ≤ (s.online cfg).countP fun e => e.1.toNat < node.1.toNat := by
    rw [online, List.countP_filter]
    apply List.countP_mono_left
    intro e _ he
    obtain ⟨hlt, hsucceed⟩ := of_decide_eq_true he
    rw [not_offline_of_succeed hsucceed, Bool.not_false, Bool.and_true]
    exact decide_eq_true hlt
  by_contra hge
  exact lt_irrefl _ (lt_of_mem_take_of_countP hsorted ((not_lt.1 hge).trans hle) node h)

variable (starts) in
/-- When nothing is in flight and no node is left to query, enough nodes have replied before any
other one. -/
theorem not_startable_of_none (hinv : s.Inv) (hidle : ¬s.InFlight)
    (h : s.getNextLnodeToQuery cfg = none) : ¬s.Startable starts := by
  rintro ⟨node, hnode, hnull, -, hcount⟩
  have hall : ∀ e ∈ s.considered cfg, e.2.state ≠ .null := by
    simpa [getNextLnodeToQuery] using h
  have honline : node ∈ s.online cfg :=
    List.mem_filter.2 ⟨hnode, by rw [not_offline_of_null hnull]; rfl⟩
  rw [considered_eq] at hall
  rw [← List.take_append_drop s.n_closest (s.online cfg), List.mem_append] at honline
  -- the node is behind the considered ones, which are `n_closest` then
  have hdrop := honline.resolve_left fun htake => hall node htake hnull
  have hsorted : (s.online cfg).Pairwise fun a b => a.1 < b.1 :=
    hinv.sorted.sublist List.filter_sublist
  rw [← List.take_append_drop s.n_closest (s.online cfg), List.pairwise_append] at hsorted
  have hlength : ((s.online cfg).take s.n_closest).length = s.n_closest := by
    apply List.length_take_of_le
    by_contra hlt
    rw [List.drop_of_length_le (not_le.1 hlt).le] at hdrop
    nomatch hdrop
  have hreplied : ∀ e ∈ (s.online cfg).take s.n_closest,
      decide (e.1 < node.1 ∧ e.2.state = .succeed) = true := by
    intro e he
    have hmem := List.mem_filter.1 (List.mem_of_mem_take he)
    refine decide_eq_true ⟨hsorted.2.2 e he node hdrop, ?_⟩
    cases hstate : e.2.state with
    | null => exact absurd hstate (hall e he)
    | querying => exact absurd ⟨e, hmem.1, hstate⟩ hidle
    | succeed => rfl
    | failed => simp [isOffline, hstate] at hmem
  have hle : s.n_closest
      ≤ s.lnode_db.countP fun e => e.1 < node.1 ∧ e.2.state = .succeed :=
    calc s.n_closest = ((s.online cfg).take s.n_closest).length := hlength.symm
      _ = ((s.online cfg).take s.n_closest).countP
            fun e => e.1 < node.1 ∧ e.2.state = .succeed := (List.countP_eq_length.2 hreplied).symm
      _ ≤ s.lnode_db.countP fun e => e.1 < node.1 ∧ e.2.state = .succeed :=
        List.Sublist.countP_le ((List.take_sublist _ _).trans List.filter_sublist)
  exact absurd hcount hle.not_gt

theorem mem_setLnode {k : KadId} {f : Lnode → Lnode} {e : KadId × Lnode} :
    e ∈ (s.setLnode k f).lnode_db
      ↔ ∃ e' ∈ s.lnode_db, (if e'.1 = k then (e'.1, f e'.2) else e') = e := List.mem_map

theorem mem_setLnode_self {f : Lnode → Lnode} (hnode : node ∈ s.lnode_db) :
    (node.1, f node.2) ∈ (s.setLnode node.1 f).lnode_db :=
  mem_setLnode.2 ⟨node, hnode, if_pos rfl⟩

/-- The nodes but for the one which is changed. -/
theorem Inv.mem_setLnode_iff (hinv : s.Inv) (hnode : node ∈ s.lnode_db) {f : Lnode → Lnode}
    {e : KadId × Lnode} : e ∈ (s.setLnode node.1 f).lnode_db
      ↔ e = (node.1, f node.2) ∨ e ∈ s.lnode_db ∧ e ≠ node := by
  rw [mem_setLnode]
  constructor
  · rintro ⟨e', he', rfl⟩
    split_ifs with heq
    · left
      rw [hinv.eq_of_distid he' hnode heq]
    · exact .inr ⟨he', fun h => heq (congrArg Prod.fst h)⟩
  · rintro (rfl | ⟨he, hne⟩)
    · exact ⟨node, hnode, if_pos rfl⟩
    · exact ⟨e, he, if_neg fun heq => hne (hinv.eq_of_distid he hnode heq)⟩

theorem countP_setLnode (hinv : s.Inv) (hnode : node ∈ s.lnode_db) {f : Lnode → Lnode}
    {p : KadId × Lnode → Bool} (hp : p (node.1, f node.2) = p node) :
    (s.setLnode node.1 f).lnode_db.countP p = s.lnode_db.countP p := by
  show (s.lnode_db.map _).countP p = _
  rw [List.countP_map]
  apply List.countP_congr
  intro e he
  show p (if e.1 = node.1 then _ else _) = true ↔ p e = true
  split_ifs with heq
  · rw [hinv.eq_of_distid he hnode heq, hp]
  · exact Iff.rfl

theorem Inv.setLnode (hinv : s.Inv) {k : KadId} {f : Lnode → Lnode}
    (hf : ∀ lnode, (f lnode).kad_addr = lnode.kad_addr)
    (hwanted : (s.setLnode k f).InFlight → s.n_closest ≠ 0) : (s.setLnode k f).Inv where
  distid e he := by
    obtain ⟨e', he', rfl⟩ := mem_setLnode.1 he
    split_ifs with heq
    · show e'.1 = (f e'.2).kad_addr.peerid ^^^ s.target_id
      rw [hf]
      exact hinv.distid e' he'
    · exact hinv.distid e' he'
  sorted := by
    show (s.lnode_db.map _).Pairwise _
    rw [List.pairwise_map]
    apply hinv.sorted.imp
    intro a b hlt
    split_ifs <;> exact hlt
  wanted := hwanted

theorem inFlight_lnodeStart (hinv : s.Inv) (hnode : node ∈ s.lnode_db)
    (hnull : node.2.state = .null) (b : Bool) :
    (s.lnodeStart node.1 b).InFlight ↔ s.InFlight ∨ b = true := by
  constructor
  · rintro ⟨e, he, hstate⟩
    rcases (hinv.mem_setLnode_iff hnode).1 he with rfl | ⟨he, -⟩
    · right
      cases b with
      | true => rfl
      | false => nomatch hstate
    · exact .inl ⟨e, he, hstate⟩
  · rintro (⟨e, he, hstate⟩ | rfl)
    · refine ⟨e, (hinv.mem_setLnode_iff hnode).2 (.inr ⟨he, ?_⟩), hstate⟩
      rintro rfl
      rw [hnull] at hstate
      nomatch hstate
    · exact ⟨_, mem_setLnode_self hnode, rfl⟩

theorem Inv.lnodeStart (hinv : s.Inv) (hn : s.n_closest ≠ 0) (k : KadId) (b : Bool) :
    (s.lnodeStart k b).Inv := hinv.setLnode (fun _ => rfl) fun _ => hn

/-- A node whose query cannot be started makes no difference to the others. -/
theorem startable_lnodeStart (hinv : s.Inv) (hnode : node ∈ s.lnode_db)
    (hnull : node.2.state = .null) (hstarts : starts node.2.kad_addr.peerid = false) :
    (s.lnodeStart node.1 false).Startable starts ↔ s.Startable starts := by
  have hcount (k : KadId) :
      (s.lnodeStart node.1 false).lnode_db.countP (fun e => e.1 < k ∧ e.2.state = .succeed)
        = s.lnode_db.countP fun e => e.1 < k ∧ e.2.state = .succeed :=
    countP_setLnode hinv hnode (by simp [hnull])
  constructor
  · rintro ⟨e, he, hstate, hok, hlt⟩
    rw [hcount] at hlt
    rcases (hinv.mem_setLnode_iff hnode).1 he with rfl | ⟨he, -⟩
    · nomatch hstate
    · exact ⟨e, he, hstate, hok, hlt⟩
  · rintro ⟨e, he, hstate, hok, hlt⟩
    rw [← hcount] at hlt
    refine ⟨e, (hinv.mem_setLnode_iff hnode).2 (.inr ⟨he, ?_⟩), hstate, hok, hlt⟩
    rintro rfl
    rw [hstarts] at hok
    nomatch hok

/-- How many nodes have not been queried. -/
def nbNull (s : Nsearch) : ℕ := s.lnode_db.countP fun e => e.2.state = .null

/-- A map which gives `p` to no element, and takes it from one of them. -/
theorem countP_map_lt {α : Type*} {p : α → Bool} {g : α → α} {l : List α} {a : α}
    (hg : ∀ b ∈ l, p (g b) = true → p b = true) (ha : a ∈ l) (hpa : p a = true)
    (hga : p (g a) = false) : (l.map g).countP p < l.countP p := by
  obtain ⟨l₁, l₂, rfl⟩ := List.append_of_mem ha
  have h₁ : (l₁.map g).countP p ≤ l₁.countP p := by
    rw [List.countP_map]
    exact List.countP_mono_left fun b hb => hg b (List.mem_append_left _ hb)
  have h₂ : (l₂.map g).countP p ≤ l₂.countP p := by
    rw [List.countP_map]
    exact List.countP_mono_left fun b hb =>
      hg b (List.mem_append_right _ (List.mem_cons_of_mem _ hb))
  rw [List.map_append, List.map_cons, List.countP_append, List.countP_append,
    List.countP_cons_of_neg (by simp [hga]), List.countP_cons_of_pos hpa]
  omega

theorem nbNull_lnodeStart_lt (hnode : node ∈ s.lnode_db) (hnull : node.2.state = .null)
    (b : Bool) : (s.lnodeStart node.1 b).nbNull < s.nbNull := by
  have hstate : (if b then LnodeState.querying else .failed) ≠ .null := by cases b <;> nofun
  apply countP_map_lt _ hnode (decide_eq_true hnull)
  · show decide (Lnode.state (Prod.snd (if node.1 = node.1 then _ else _)) = .null) = false
    rw [if_pos rfl]
    exact decide_eq_false hstate
  · intro e _ he
    have he := of_decide_eq_true he
    by_cases heq : e.1 = node.1
    · rw [if_pos heq] at he
      exact absurd he hstate
    · rw [if_neg heq] at he
      exact decide_eq_true he

/-- **Launching**: from a search with nothing in flight, a query is started exactly when one can
be, and otherwise none can be after it. -/
theorem launchQuery_spec (fuel : ℕ) (hinv : s.Inv) (hfuel : s.nbNull < fuel)
    (hidle : ¬s.InFlight) :
    (s.launchQuery cfg starts fuel).InFlight ∧ s.Startable starts
      ∨ ¬(s.launchQuery cfg starts fuel).InFlight ∧ ¬s.Startable starts
        ∧ ¬(s.launchQuery cfg starts fuel).Startable starts := by
  induction fuel generalizing s with
  | zero => exact absurd hfuel (Nat.not_lt_zero _)
  | succ fuel ih =>
    rw [launchQuery]
    cases hnext : s.getNextLnodeToQuery cfg with
    | none =>
      have hnot := not_startable_of_none starts hinv hidle hnext
      exact .inr ⟨hidle, hnot, hnot⟩
    | some node =>
      obtain ⟨hmem, hnull⟩ := getNext_spec hnext
      have hnode := mem_of_mem_considered hmem
      have hn := n_closest_ne_zero_of_mem hmem
      simp only
      by_cases hok : starts node.2.kad_addr.peerid = true
      · rw [if_pos hok, hok]
        left
        exact ⟨(inFlight_lnodeStart hinv hnode hnull true).2 (.inr rfl),
          node, hnode, hnull, hok, countP_lt_of_mem_considered hinv hmem⟩
      · have hok := Bool.eq_false_iff.2 hok
        rw [if_neg (by simp [hok]), hok, ← startable_lnodeStart hinv hnode hnull hok]
        apply ih (hinv.lnodeStart hn _ _)
        · have := nbNull_lnodeStart_lt hnode hnull false
          omega
        · rw [inFlight_lnodeStart hinv hnode hnull]
          simpa using hidle

variable (cfg starts) in
/-- What is kept when a null node is tried is kept when queries are launched. -/
theorem launchQuery_induct {P : Nsearch → Prop} (fuel : ℕ) (hs : P s) (hinv : s.Inv)
    (hstep : ∀ (s : Nsearch) (node : KadId × Lnode) (b : Bool), P s → s.Inv → node ∈ s.lnode_db →
      node.2.state = .null → s.n_closest ≠ 0 → P (s.lnodeStart node.1 b)) :
    P (s.launchQuery cfg starts fuel) ∧ (s.launchQuery cfg starts fuel).Inv := by
  induction fuel generalizing s with
  | zero => exact ⟨hs, hinv⟩
  | succ fuel ih =>
    rw [launchQuery]
    cases hnext : s.getNextLnodeToQuery cfg with
    | none => exact ⟨hs, hinv⟩
    | some node =>
      obtain ⟨hmem, hnull⟩ := getNext_spec hnext
      have hn := n_closest_ne_zero_of_mem hmem
      have hstarted := hstep s node (starts node.2.kad_addr.peerid) hs hinv
        (mem_of_mem_considered hmem) hnull hn
      simp only
      split_ifs
      · exact ⟨hstarted, hinv.lnodeStart hn _ _⟩
      · exact ih hstarted (hinv.lnodeStart hn _ _)

theorem launchQueries_induct {P : Nsearch → Prop} (max_nb_query : ℕ) (hs : P s) (hinv : s.Inv)
    (hstep : ∀ (s : Nsearch) (node : KadId × Lnode) (b : Bool), P s → s.Inv → node ∈ s.lnode_db →
      node.2.state = .null → s.n_closest ≠ 0 → P (s.lnodeStart node.1 b)) :
    P (s.launchQueries cfg max_nb_query starts)
      ∧ (s.launchQueries cfg max_nb_query starts).Inv := by
  rw [launchQueries]
  induction max_nb_query generalizing s with
  | zero => exact ⟨hs, hinv⟩
  | succ max_nb_query ih =>
    obtain ⟨hs, hinv⟩ := launchQuery_induct cfg starts (s.lnode_db.length + 1) hs hinv hstep
    rw [Function.iterate_succ_apply]
    exact ih hs hinv

theorem inFlight_launchQueries (hinv : s.Inv) (hflight : s.InFlight) (max_nb_query : ℕ) :
    (s.launchQueries cfg max_nb_query starts).InFlight := by
  apply (launchQueries_induct max_nb_query hflight hinv _).1
  intro s node b hflight hinv hnode hnull _
  exact (inFlight_lnodeStart hinv hnode hnull b).2 (.inl hflight)

theorem notified_launchQueries (hinv : s.Inv) (max_nb_query : ℕ) :
    (s.launchQueries cfg max_nb_query starts).notified = s.notified :=
  (launchQueries_induct (P := fun t => t.notified = s.notified) max_nb_query rfl hinv
    fun _ _ _ h _ _ _ _ => h).1

theorem launchQueries_inFlight_iff (hinv : s.Inv) (hidle : ¬s.InFlight) {max_nb_query : ℕ}
    (hmax : max_nb_query ≠ 0) :
    (s.launchQueries cfg max_nb_query starts).InFlight ↔ s.Startable starts := by
  induction max_nb_query generalizing s with
  | zero => exact absurd rfl hmax
  | succ max_nb_query ih =>
    have hfuel : s.nbNull < s.lnode_db.length + 1 := Nat.lt_succ_of_le List.countP_le_length
    have hnext := (launchQuery_induct cfg starts (P := fun _ => True)
      (s.lnode_db.length + 1) trivial hinv fun _ _ _ _ _ _ _ _ => trivial).2
    rw [launchQueries, Function.iterate_succ_apply]
    show (launchQueries cfg max_nb_query starts (s.launchQuery cfg starts _)).InFlight ↔ _
    rcases launchQuery_spec _ hinv hfuel hidle with ⟨hflight, hstartable⟩ | ⟨hidle', hno, hno'⟩
    · exact iff_of_true (inFlight_launchQueries hnext hflight _) hstartable
    · refine iff_of_false ?_ hno
      by_cases h0 : max_nb_query = 0
      · rw [h0]
        exact hidle'
      · rw [ih hnext hidle' h0]
        exact hno'

/-! ### The result -/

/-- A completed search has the result it should. -/
theorem nclosestResult_of_completed (hinv : s.Inv) (hn : s.n_closest ≠ 0)
    (hcompleted : s.nsearchIsCompleted cfg = true) : s.NclosestResult cfg
      (resultLoop (s.isOffline cfg) s.n_closest 0 s.lnode_db) := by
  have hresult : resultLoop (s.isOffline cfg) s.n_closest 0 s.lnode_db
      = ((s.online cfg).take s.n_closest).map fun e => e.2.toCaddr :=
    resultLoop_eq _ (Nat.pos_of_ne_zero hn) _
  rw [nsearchIsCompleted, considered_eq, List.all_eq_true] at hcompleted
  have hsorted : (s.online cfg).Pairwise fun a b => a.1 < b.1 :=
    hinv.sorted.sublist List.filter_sublist
  have hmem : ∀ e ∈ (s.online cfg).take s.n_closest, e ∈ s.lnode_db := fun e he =>
    List.mem_of_mem_filter (List.mem_of_mem_take he)
  rw [hresult]
  refine ⟨?_, ?_, ?_, ?_⟩
  · rw [List.length_map]
    exact List.length_take_le _ _
  · rw [List.pairwise_map]
    apply (hsorted.sublist (List.take_sublist _ _)).imp_of_mem
    intro a b ha hb hlt
    rw [hinv.distid a (hmem a ha), hinv.distid b (hmem b hb)] at hlt
    exact hlt
  · intro caddr hcaddr
    obtain ⟨e, he, rfl⟩ := List.mem_map.1 hcaddr
    exact ⟨e, hmem e he, rfl, of_decide_eq_true (hcompleted e he)⟩
  · intro e he hnot caddr hcaddr hlt
    obtain ⟨listed, hlisted, rfl⟩ := List.mem_map.1 hcaddr
    by_contra honline
    have honline : e ∈ s.online cfg := List.mem_filter.2 ⟨he, by simpa using honline⟩
    rw [← List.take_append_drop s.n_closest (s.online cfg)] at honline hsorted
    rw [List.pairwise_append] at hsorted
    rcases List.mem_append.1 honline with htake | hdrop
    · exact hnot (List.mem_map.2 ⟨e, htake, rfl⟩)
    · have hfar := hsorted.2.2 listed hlisted e hdrop
      rw [hinv.distid e he, hinv.distid listed (hmem listed hlisted)] at hfar
      exact BitVec.lt_asymm hfar hlt

theorem nb_wished_ne_zero (hn : s.n_closest ≠ 0) : s.nbWishedQuery cfg ≠ 0 := by
  rw [nbWishedQuery]
  split_ifs
  · exact hn
  · omega

theorem sound_of_running (h : s.notified = none) : s.Sound cfg ↔ s.InFlight := by
  constructor
  · intro hsound
    exact hsound.progress h
  · intro hflight
    refine ⟨fun _ => hflight, ?_, ?_⟩
    · rw [h]
      nofun
    · rw [h]
      nofun

variable (cfg starts) in
theorem sound_goOn (hinv : s.Inv) (hn : s.n_closest ≠ 0) (hrun : s.notified = none) :
    (s.goOn cfg starts).Sound cfg
      ↔ s.InFlight ∨ s.nsearchIsCompleted cfg = true ∨ s.Startable starts := by
  rw [goOn]
  split_ifs with hcompleted henough
  · refine iff_of_true ?_ (.inr (.inl hcompleted))
    rw [notifyEndResult]
    split_ifs
    · refine ⟨nofun, ?_, ?_⟩
      · rintro _ -
        exact hcompleted
      · rintro _ ⟨⟩
        obtain ⟨hlength, hsorted, hreplied, hnearer⟩ :=
          nclosestResult_of_completed hinv hn hcompleted
        exact ⟨hlength, hsorted, hreplied, hnearer⟩
    · exact ⟨nofun, nofun, nofun⟩
  · -- enough queries are in flight
    have hflight : s.InFlight := by
      have hpos : 0 < s.getNbQueryingNode cfg :=
        (Nat.pos_of_ne_zero (nb_wished_ne_zero hn)).trans_le henough
      obtain ⟨e, he, hstate⟩ := List.countP_pos_iff.1 hpos
      exact ⟨e, mem_of_mem_considered he, of_decide_eq_true hstate⟩
    rw [sound_of_running hrun]
    exact iff_of_true hflight (.inl hflight)
  · rw [sound_of_running ((notified_launchQueries hinv _).trans hrun)]
    by_cases hflight : s.InFlight
    · exact iff_of_true (inFlight_launchQueries hinv hflight _) (.inl hflight)
    · rw [launchQueries_inFlight_iff hinv hflight (by omega), or_iff_right hflight,
        or_iff_right hcompleted]

/-! ### Learning -/

theorem mem_lnodeLink {kad_addr : KadAddr} {e : KadId × Lnode} :
    e ∈ (s.lnodeLink kad_addr).lnode_db ↔ e ∈ s.lnode_db
      ∨ Omap.find (s.distid kad_addr) s.lnode_db = none
        ∧ e = (s.distid kad_addr, ⟨kad_addr, .null, 0, 0⟩) := by
  show e ∈ Omap.insert _ _ _ _ ↔ _
  rw [Omap.insert]
  cases hfind : Omap.find (s.distid kad_addr) s.lnode_db with
  | none =>
    show e ∈ Omap.place _ _ _ _ ↔ _
    rw [Omap.mem_place, or_comm, and_iff_right rfl]
  | some lnode =>
    show e ∈ s.lnode_db ↔ _
    rw [or_iff_left (by simp)]

theorem inFlight_lnodeLink {kad_addr : KadAddr} :
    (s.lnodeLink kad_addr).InFlight ↔ s.InFlight := by
  constructor
  · rintro ⟨e, he, hstate⟩
    rcases mem_lnodeLink.1 he with he | ⟨-, rfl⟩
    · exact ⟨e, he, hstate⟩
    · nomatch hstate
  · rintro ⟨e, he, hstate⟩
    exact ⟨e, mem_lnodeLink.2 (.inl he), hstate⟩

theorem Inv.lnodeLink (hinv : s.Inv) (kad_addr : KadAddr) : (s.lnodeLink kad_addr).Inv where
  distid e he := by
    rcases mem_lnodeLink.1 he with he | ⟨-, rfl⟩
    · exact hinv.distid e he
    · rfl
  sorted := by
    show (Omap.insert _ _ _ _).Pairwise _
    cases hfind : Omap.find (s.distid kad_addr) s.lnode_db with
    | none =>
      rw [Omap.insert_of_find hfind]
      have hplace := Omap.sorted_place ltKadId (a := ⟨kad_addr, .null, 0, 0⟩)
        (fun hab hbc => decide_eq_true
          (BitVec.lt_trans (of_decide_eq_true hab) (of_decide_eq_true hbc)))
        (fun hne hba => decide_eq_true
          (BitVec.lt_of_le_ne (BitVec.not_lt.1 (of_decide_eq_false hba)) hne))
        (hinv.sorted.imp fun hab => decide_eq_true hab) hfind
      exact hplace.imp fun hab => of_decide_eq_true hab
    | some lnode =>
      rw [Omap.insert, hfind]
      exact hinv.sorted
  wanted h := hinv.wanted (inFlight_lnodeLink.1 h)

/-- Linking nodes, as many as there are. -/
theorem mergeAddrArr_induct {P : Nsearch → Prop} (hs : P s) (kad_addr_arr : List KadAddr)
    (hstep : ∀ s kad_addr, P s → kad_addr ∈ kad_addr_arr → P (s.lnodeLink kad_addr)) :
    P (s.mergeAddrArr cfg kad_addr_arr).2 := by
  show P (kad_addr_arr.foldl (fun s kad_addr => s.lnodeLink kad_addr) s)
  induction kad_addr_arr generalizing s with
  | nil => exact hs
  | cons kad_addr kad_addr_arr ih =>
    apply ih (hstep s kad_addr hs List.mem_cons_self)
    intro s other hs hother
    exact hstep s other hs (List.mem_cons_of_mem _ hother)

variable (cfg) in
theorem Inv.mergeAddrArr (hinv : s.Inv) (kad_addr_arr : List KadAddr) :
    (s.mergeAddrArr cfg kad_addr_arr).2.Inv :=
  mergeAddrArr_induct hinv _ fun _ kad_addr hinv _ => hinv.lnodeLink kad_addr

variable (cfg) in
theorem n_closest_mergeAddrArr (kad_addr_arr : List KadAddr) :
    (s.mergeAddrArr cfg kad_addr_arr).2.n_closest = s.n_closest :=
  mergeAddrArr_induct (P := fun t => t.n_closest = s.n_closest) rfl _ fun _ _ h _ => h

variable (cfg) in
theorem notified_mergeAddrArr (kad_addr_arr : List KadAddr) :
    (s.mergeAddrArr cfg kad_addr_arr).2.notified = s.notified :=
  mergeAddrArr_induct (P := fun t => t.notified = s.notified) rfl _ fun _ _ h _ => h

variable (cfg) in
theorem n_closest_learn (distid : KadId) (reply : NsearchReply) :
    (s.learn cfg distid reply).n_closest = s.n_closest := by
  cases reply with
  | fatal => rfl
  | addrArr kad_addr_arr cookie_id => exact n_closest_mergeAddrArr cfg kad_addr_arr
  | recdups dups has_more_record => rfl

variable (cfg) in
theorem notified_learn (distid : KadId) (reply : NsearchReply) :
    (s.learn cfg distid reply).notified = s.notified := by
  cases reply with
  | fatal => rfl
  | addrArr kad_addr_arr cookie_id => exact notified_mergeAddrArr cfg kad_addr_arr
  | recdups dups has_more_record => rfl

variable (cfg) in
theorem Inv.learn (hinv : s.Inv) (hn : s.n_closest ≠ 0) (distid : KadId) (reply : NsearchReply) :
    (s.learn cfg distid reply).Inv := by
  have hset {f : Lnode → Lnode} (hf : ∀ lnode, (f lnode).kad_addr = lnode.kad_addr) :
      (s.setLnode distid f).Inv := hinv.setLnode hf fun _ => hn
  cases reply with
  | fatal => exact hset (f := fun lnode => { lnode with state := .failed }) fun _ => rfl
  | addrArr kad_addr_arr cookie_id =>
    have hmerged := Inv.mergeAddrArr cfg (hset (f := fun lnode =>
      { lnode with state := .succeed, cookie_id := cookie_id }) fun _ => rfl) kad_addr_arr
    exact ⟨hmerged.distid, hmerged.sorted, hmerged.wanted⟩
  | recdups dups has_more_record =>
    exact hset (f := fun lnode => { lnode with state := .succeed }) fun _ => rfl

/-! ### Runs -/

theorem inFlight_of_isQuerying {peerid : KadId} (h : s.isQuerying peerid = true) :
    s.InFlight := by
  rw [isQuerying] at h
  cases hfind : Omap.find (peerid ^^^ s.target_id) s.lnode_db with
  | none =>
    rw [hfind] at h
    nomatch h
  | some lnode =>
    rw [hfind] at h
    exact ⟨_, Omap.mem_of_find hfind, of_decide_eq_true h⟩

theorem Inv.goOn (hinv : s.Inv) : (s.goOn cfg starts).Inv := by
  rw [Nsearch.goOn]
  split_ifs
  · rw [notifyEndResult]
    split_ifs
    · exact ⟨hinv.distid, hinv.sorted, hinv.wanted⟩
    · exact ⟨hinv.distid, hinv.sorted, hinv.wanted⟩
  · exact hinv
  · exact (launchQueries_induct (P := fun _ => True) _ trivial hinv
      fun _ _ _ _ _ _ _ _ => trivial).2

theorem Inv.rpcEventCb (hinv : s.Inv) (hn : s.n_closest ≠ 0) (distid : KadId)
    (reply : NsearchReply) : (s.rpcEventCb cfg distid reply starts).Inv := by
  have hlearn := hinv.learn cfg hn distid reply
  cases reply with
  | fatal => exact hlearn.goOn
  | addrArr kad_addr_arr cookie_id => exact hlearn.goOn
  | recdups dups has_more_record =>
    rw [Nsearch.rpcEventCb]
    split_ifs
    · exact hinv
    · exact ⟨hlearn.distid, hlearn.sorted, hlearn.wanted⟩

theorem step_notified {result : NsearchEvent} (h : s.notified = some result) (ev : NsearchEv) :
    s.step cfg ev = s := by
  simp only [step, h]

theorem step_rpc (h : s.notified = none) (peerid : KadId) (reply : NsearchReply) :
    s.step cfg (.rpc peerid reply starts) = if s.isQuerying peerid then
      s.rpcEventCb cfg (peerid ^^^ s.target_id) reply starts else s := by
  simp only [step, h]

theorem step_elapse (h : s.notified = none) (delay : ℕ) :
    s.step cfg (.elapse delay) = { s with present := s.present + delay } := by
  simp only [step, h]

theorem step_expire (h : s.notified = none) :
    s.step cfg .expire = s.notifyCallback .timedout := by
  simp only [step, h]

theorem Inv.step (hinv : s.Inv) (ev : NsearchEv) : (s.step cfg ev).Inv := by
  cases hnotified : s.notified with
  | some result =>
    rw [step_notified hnotified]
    exact hinv
  | none =>
    cases ev with
    | rpc peerid reply starts =>
      rw [step_rpc hnotified]
      split_ifs with hquerying
      · exact hinv.rpcEventCb (hinv.wanted (inFlight_of_isQuerying hquerying)) _ reply
      · exact hinv
    | elapse delay =>
      rw [step_elapse hnotified]
      exact ⟨hinv.distid, hinv.sorted, hinv.wanted⟩
    | expire =>
      rw [step_expire hnotified]
      exact ⟨hinv.distid, hinv.sorted, hinv.wanted⟩

/-- The end of an rpc. -/
theorem sound_rpc_iff (hinv : s.Inv) (hsound : s.Sound cfg) (hrun : s.notified = none)
    (peerid : KadId) (reply : NsearchReply) (starts : KadId → Bool) :
    (s.step cfg (.rpc peerid reply starts)).Sound cfg ↔ s.Guard cfg (.rpc peerid reply starts) := by
  rw [step_rpc hrun]
  by_cases hquerying : s.isQuerying peerid = true
  · have hn := hinv.wanted (inFlight_of_isQuerying hquerying)
    have hgo := sound_goOn cfg starts (hinv.learn cfg hn (peerid ^^^ s.target_id) reply)
      ((n_closest_learn cfg _ reply).trans_ne hn) ((notified_learn cfg _ reply).trans hrun)
    rw [if_pos hquerying]
    cases reply with
    | fatal =>
      show _ ↔ (s.notified = none → s.isQuerying peerid = true → _)
      rw [forall_prop_of_true hrun, forall_prop_of_true hquerying]
      exact hgo
    | addrArr kad_addr_arr cookie_id =>
      show _ ↔ (s.notified = none → s.isQuerying peerid = true → _)
      rw [forall_prop_of_true hrun, forall_prop_of_true hquerying]
      exact hgo
    | recdups dups has_more_record =>
      refine iff_of_true ?_ trivial
      rw [rpcEventCb]
      split_ifs
      · exact hsound
      · exact ⟨nofun, nofun, nofun⟩
  · rw [if_neg hquerying]
    refine iff_of_true hsound ?_
    cases reply with
    | fatal => exact fun _ h => absurd h hquerying
    | addrArr kad_addr_arr cookie_id => exact fun _ h => absurd h hquerying
    | recdups dups has_more_record => trivial

/-- What one event needs. -/
theorem sound_step_iff (hinv : s.Inv) (hsound : s.Sound cfg) (ev : NsearchEv) :
    (s.step cfg ev).Sound cfg ↔ s.Guard cfg ev := by
  cases hnotified : s.notified with
  | some result =>
    rw [step_notified hnotified]
    refine iff_of_true hsound ?_
    have hne : s.notified ≠ none := by
      rw [hnotified]
      nofun
    cases ev with
    | rpc peerid reply starts =>
      cases reply with
      | fatal => exact fun h => absurd h hne
      | addrArr kad_addr_arr cookie_id => exact fun h => absurd h hne
      | recdups dups has_more_record => trivial
    | elapse delay => trivial
    | expire => trivial
  | none =>
    cases ev with
    | rpc peerid reply starts => exact sound_rpc_iff hinv hsound hnotified peerid reply starts
    | elapse delay =>
      rw [step_elapse hnotified]
      refine iff_of_true ?_ trivial
      exact (sound_of_running (s := { s with present := s.present + delay }) hnotified).2
        (hsound.progress hnotified)
    | expire =>
      rw [step_expire hnotified]
      exact iff_of_true ⟨nofun, nofun, nofun⟩ trivial

/-- What the start of a search needs. -/
def StartGuard (cfg : NsearchCfg) (n_closest : ℕ) (init_addr_arr : List KadAddr)
    (starts : KadId → Bool) : Prop :=
  cfg.nb_concurrent_req ≠ 0 ∧ n_closest ≠ 0 ∧ ∃ kad_addr ∈ init_addr_arr, starts kad_addr.peerid

theorem mem_mergeAddrArr {e : KadId × Lnode} (he : e ∈ s.lnode_db) (kad_addr_arr : List KadAddr) :
    e ∈ (s.mergeAddrArr cfg kad_addr_arr).2.lnode_db :=
  mergeAddrArr_induct (P := fun t => e ∈ t.lnode_db) he _ fun _ _ he _ => mem_lnodeLink.2 (.inl he)

/-- The nodes which are merged are there then. -/
theorem learned_of_mem {kad_addr : KadAddr} {kad_addr_arr : List KadAddr}
    (h : kad_addr ∈ kad_addr_arr) :
    ∃ e ∈ (s.mergeAddrArr cfg kad_addr_arr).2.lnode_db, e.1 = s.distid kad_addr := by
  induction kad_addr_arr generalizing s with
  | nil => nomatch h
  | cons other kad_addr_arr ih =>
    show ∃ e ∈ (mergeAddrArr cfg kad_addr_arr (s.lnodeLink other)).2.lnode_db, _
    rcases List.mem_cons.1 h with rfl | h
    · cases hfind : Omap.find (s.distid kad_addr) s.lnode_db with
      | none => exact ⟨_, mem_mergeAddrArr (mem_lnodeLink.2 (.inr ⟨hfind, rfl⟩)) _, rfl⟩
      | some lnode =>
        exact ⟨_, mem_mergeAddrArr (mem_lnodeLink.2 (.inl (Omap.mem_of_find hfind))) _, rfl⟩
    · exact ih (s := s.lnodeLink other) h

/-- A search which has learned its first nodes, and has queried none. -/
structure Fresh (init_addr_arr : List KadAddr) (s : Nsearch) : Prop where
  inv : s.Inv
  null : ∀ e ∈ s.lnode_db, e.2.kad_addr ∈ init_addr_arr ∧ e.2.state = .null
  learned : ∀ kad_addr ∈ init_addr_arr, ∃ e ∈ s.lnode_db, e.1 = s.distid kad_addr
  running : s.notified = none

theorem Fresh.not_inFlight {init_addr_arr : List KadAddr} (h : s.Fresh init_addr_arr) :
    ¬s.InFlight := by
  rintro ⟨e, he, hstate⟩
  rw [(h.null e he).2] at hstate
  nomatch hstate

/-- A search which knows no node. -/
theorem inv_nil (target_id : KadId) (n_closest : ℕ) (is_findnode : Bool) :
    (⟨target_id, n_closest, is_findnode, [], 0, 0, none⟩ : Nsearch).Inv := by
  refine ⟨fun e he => ?_, .nil, fun ⟨e, he, _⟩ => ?_⟩
  · nomatch he
  · nomatch he

variable (cfg) in
theorem fresh_mergeAddrArr (target_id : KadId) (n_closest : ℕ) (is_findnode : Bool)
    (init_addr_arr : List KadAddr) : (mergeAddrArr cfg init_addr_arr
      ⟨target_id, n_closest, is_findnode, [], 0, 0, none⟩).2.Fresh init_addr_arr where
  inv := Inv.mergeAddrArr cfg (inv_nil _ _ _) init_addr_arr
  null := by
    apply mergeAddrArr_induct
      (P := fun t => ∀ e ∈ t.lnode_db, e.2.kad_addr ∈ init_addr_arr ∧ e.2.state = .null)
    · exact nofun
    · intro s kad_addr hs hmem e he
      rcases mem_lnodeLink.1 he with he | ⟨-, rfl⟩
      · exact hs e he
      · exact ⟨hmem, rfl⟩
  learned kad_addr h := by
    have htarget : (mergeAddrArr cfg init_addr_arr
        ⟨target_id, n_closest, is_findnode, [], 0, 0, none⟩).2.target_id = target_id :=
      mergeAddrArr_induct (P := fun t => t.target_id = target_id) rfl _ fun _ _ h _ => h
    rw [distid, htarget]
    exact learned_of_mem h
  running := notified_mergeAddrArr cfg init_addr_arr

theorem Fresh.startable_iff {init_addr_arr : List KadAddr} (h : s.Fresh init_addr_arr) :
    s.Startable starts
      ↔ s.n_closest ≠ 0 ∧ ∃ kad_addr ∈ init_addr_arr, starts kad_addr.peerid = true := by
  have hzero (k : KadId) :
      s.lnode_db.countP (fun e => e.1 < k ∧ e.2.state = .succeed) = 0 := by
    apply List.countP_eq_zero.2
    intro e he hlt
    have hstate := (of_decide_eq_true hlt).2
    rw [(h.null e he).2] at hstate
    nomatch hstate
  constructor
  · rintro ⟨e, he, -, hok, hlt⟩
    rw [hzero] at hlt
    exact ⟨Nat.ne_of_gt hlt, e.2.kad_addr, (h.null e he).1, hok⟩
  · rintro ⟨hn, kad_addr, hmem, hok⟩
    obtain ⟨e, he, hdistid⟩ := h.learned kad_addr hmem
    have hpeerid : e.2.kad_addr.peerid = kad_addr.peerid :=
      (BitVec.xor_left_inj _).1 ((h.inv.distid e he).symm.trans hdistid)
    refine ⟨e, he, (h.null e he).2, hpeerid ▸ hok, ?_⟩
    rw [hzero]
    exact Nat.pos_of_ne_zero hn

/-- What the start of a search needs: there is a query to launch, and one can be started. -/
theorem sound_postStart_iff (target_id : KadId) (n_closest : ℕ) (is_findnode : Bool)
    (init_addr_arr : List KadAddr) (starts : KadId → Bool) :
    (postStart cfg target_id n_closest is_findnode init_addr_arr starts).Sound cfg
      ↔ StartGuard cfg n_closest init_addr_arr starts := by
  have hfresh := fresh_mergeAddrArr cfg target_id n_closest is_findnode init_addr_arr
  have hn_closest := n_closest_mergeAddrArr cfg (s := ⟨target_id, n_closest, is_findnode, [], 0, 0,
    none⟩) init_addr_arr
  rw [postStart, StartGuard]
  rw [sound_of_running ((notified_launchQueries hfresh.inv _).trans hfresh.running)]
  by_cases hmax : cfg.nb_concurrent_req = 0
  · rw [hmax]
    exact iff_of_false hfresh.not_inFlight fun h => h.1 rfl
  · rw [launchQueries_inFlight_iff hfresh.inv hfresh.not_inFlight hmax, hfresh.startable_iff,
      hn_closest, and_iff_right hmax]

/-- **Searches**: in every state of a run some query is in flight or the caller was notified, and
of the result it should be, exactly when some query can be started first and each event of the
run meets `Guard`. -/
theorem searches_iff (cfg : NsearchCfg) (target_id : KadId) (n_closest : ℕ) (is_findnode : Bool)
    (init_addr_arr : List KadAddr) (starts : KadId → Bool) (evs : List NsearchEv) :
    let s := postStart cfg target_id n_closest is_findnode init_addr_arr starts
    Always (step cfg) (Sound cfg) s evs ↔
      StartGuard cfg n_closest init_addr_arr starts ∧ Guarded (step cfg) (Guard cfg) s evs := by
  intro s
  have hinv : s.Inv := (launchQueries_induct (P := fun _ => True) _ trivial
    (fresh_mergeAddrArr cfg target_id n_closest is_findnode init_addr_arr).inv
    fun _ _ _ _ _ _ _ _ => trivial).2
  have hstart : s.Sound cfg ↔ _ :=
    sound_postStart_iff target_id n_closest is_findnode init_addr_arr starts
  rw [← hstart]
  have hruns (hs : s.Sound cfg) :
      Always (step cfg) (Sound cfg) s evs ↔ Guarded (step cfg) (Guard cfg) s evs := by
    apply always_iff_guarded (Q := Inv)
    · intro t ev ht _
      exact ht.step ev
    · intro t ev ht hsound
      exact sound_step_iff ht hsound ev
    · exact hs
    · exact hinv
  constructor
  · intro h
    exact ⟨h.head, (hruns h.head).1 h⟩
  · rintro ⟨hs, h⟩
    exact (hruns hs).2 h

/-- The only node which a search starts from cannot be queried: nothing is in flight, and nobody
is notified. -/
theorem not_searches : ¬Always (step ⟨3, 1000⟩) (Sound ⟨3, 1000⟩)
    (postStart ⟨3, 1000⟩ 0 20 true [⟨(0x7f000001, 4662), 1⟩] fun _ => false) [] := by
  intro h
  exact absurd (h.progress rfl) (by decide)

end Nsearch

end Neoip
