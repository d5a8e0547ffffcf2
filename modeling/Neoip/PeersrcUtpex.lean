/-
Neoip/PeersrcUtpex.lean

The exchange of peers: `bt_peersrc_utpex_t`, and its `bt_peersrc_utpex_cnx_t`.

Each connection is told of the others, by messages with the peers which are added and
those which are dropped.  Its first message is made from the connections which are
open, and the next ones from the two logs, of what has been opened and closed since.
What all the connections have been told is taken out of the logs.

The address of a peer is where it says that it listens, and a handshake may change it
at any moment.  Nothing is logged then.

`to_peersrc_peer` leaves `want_jamstd` as the memory has it, so that it is an argument
here.  The format of a message is not in the model, nor is the delay between two.

Main result: `UtpexNet.always_accurate_iff`.
-/
import Neoip.Difflog
import Neoip.Metainfo
import Neoip.Omap
import Neoip.Run

namespace Neoip

open Difflog

/-- `ipport_addr_t`, with the address of version 4, none when it is null. -/
structure IpportAddr where
  ipaddr : Option UInt32
  port : UInt16
deriving DecidableEq, Repr

namespace IpportAddr

/-- `ip_addr_t::is_fully_qualified`: it is not null, any, multicast or broadcast. -/
def ipIsFullyQualified : Option UInt32 → Bool
  | none => false
  | some v4_addr => v4_addr ≠ 0 && v4_addr.toNat / 2 ^ 28 ≠ 14 && v4_addr ≠ 0xffffffff

/-- `is_fully_qualified`. -/
def isFullyQualified (addr : IpportAddr) : Bool := ipIsFullyQualified addr.ipaddr && addr.port ≠ 0

end IpportAddr

/-- `bt_peersrc_peer_t`, when it is not null. -/
structure PeersrcPeer where
  peerid : BtId
  dest_addr : IpportAddr
  is_seed : Bool
  want_jamstd : Bool
deriving DecidableEq

/-- The fields of `bt_peersrc_utpex_cnx_t`, with those of its connection. -/
structure UtpexCnx where
  remote_peerid : BtId
  is_seed : Bool
  tcp_listen_ipport : IpportAddr
  next_seqnb : ℕ

/-- What a message says: `added`, `added.f` and `dropped`. -/
structure UtpexCmd where
  added : List IpportAddr
  addedf : List UInt8
  dropped : List IpportAddr

/-- The fields of `bt_peersrc_utpex_t`; the connections are known by the order they come in. -/
structure PeersrcUtpex where
  next_seqnb : ℕ
  log_opened : List (ℕ × PeersrcPeer)
  log_closed : List (ℕ × PeersrcPeer)
  cnx_db : List (ℕ × UtpexCnx)

namespace PeersrcUtpex

/-! ### The functions of the source -/

/-- `to_peersrc_peer`. -/
def toPeersrcPeer (want_jamstd : Bool) (cnx : UtpexCnx) : Option PeersrcPeer :=
  if cnx.tcp_listen_ipport.isFullyQualified then
    some
      { peerid := cnx.remote_peerid
        dest_addr := cnx.tcp_listen_ipport
        is_seed := cnx.is_seed
        want_jamstd := want_jamstd }
  else none

/-- `next_seqnb++`, on 32 bits. -/
def incSeqnb (seqnb : ℕ) : ℕ := (seqnb + 1) % 2 ^ 32

/-- An event of a log. -/
def insertLog (seqnb : ℕ) (peersrc_peer : PeersrcPeer) (log : List (ℕ × PeersrcPeer)) :
    List (ℕ × PeersrcPeer) :=
  Omap.insert (fun a b => decide (a < b)) seqnb peersrc_peer log

/-- `cnx_dolink`. -/
def cnxDolink (id : ℕ) (want_jamstd : Bool) (cnx : UtpexCnx) (s : PeersrcUtpex) : PeersrcUtpex :=
  let s := { s with cnx_db := Omap.place (fun a b => decide (a < b)) id cnx s.cnx_db }
  match toPeersrcPeer want_jamstd cnx with
  | none => s
  | some peersrc_peer =>
    { s with
      log_opened := insertLog s.next_seqnb peersrc_peer s.log_opened
      next_seqnb := incSeqnb s.next_seqnb }

/-- `cnx_unlink`. -/
def cnxUnlink (id : ℕ) (want_jamstd : Bool) (cnx : UtpexCnx) (s : PeersrcUtpex) : PeersrcUtpex :=
  let s := match toPeersrcPeer want_jamstd cnx with
    | none => s
    | some peersrc_peer =>
      { s with
        log_closed := insertLog s.next_seqnb peersrc_peer s.log_closed
        next_seqnb := incSeqnb s.next_seqnb }
  { s with cnx_db := Omap.erase id s.cnx_db }

/-- From `lower_bound` to the end. -/
def since (from_seqnb : ℕ) (log : List (ℕ × PeersrcPeer)) : List PeersrcPeer :=
  (log.filter fun e => from_seqnb ≤ e.1).map Prod.snd

/-- `get_log_init`. -/
def getLogInit (want_jamstd : ℕ → Bool) (s : PeersrcUtpex) : List PeersrcPeer :=
  s.cnx_db.filterMap fun x => toPeersrcPeer (want_jamstd x.1) x.2

/-- A peer of both logs is neither opened nor closed. -/
def getLogDiff (from_seqnb : ℕ) (s : PeersrcUtpex) : List PeersrcPeer × List PeersrcPeer :=
  net (since from_seqnb s.log_opened) (since from_seqnb s.log_closed)

/-- The next call is from `next_seqnb`. -/
def getLogMain (from_seqnb : ℕ) (want_jamstd : ℕ → Bool) (s : PeersrcUtpex) :
    List PeersrcPeer × List PeersrcPeer :=
  if from_seqnb = 0 then (s.getLogInit want_jamstd, []) else s.getLogDiff from_seqnb

/-- The least `next_seqnb` of the connections which have had a message. -/
def minSeqnb (cnx_db : List (ℕ × UtpexCnx)) : ℕ :=
  cnx_db.foldl
    (fun min_seqnb x => if x.2.next_seqnb = 0 then min_seqnb else min min_seqnb x.2.next_seqnb)
    4294967295

/-- `purge_log_if_needed`. -/
def purgeLogIfNeeded (s : PeersrcUtpex) : PeersrcUtpex :=
  { s with
    log_opened := s.log_opened.dropWhile fun e => e.1 < minSeqnb s.cnx_db
    log_closed := s.log_closed.dropWhile fun e => e.1 < minSeqnb s.cnx_db }

def peerflag (peersrc_peer : PeersrcPeer) : UInt8 :=
  (if peersrc_peer.want_jamstd then 1 else 0) ||| (if peersrc_peer.is_seed then 2 else 0)

/-- There is no message when there is nothing to say. -/
def buildCmd (opened_arr closed_arr : List PeersrcPeer) : Option UtpexCmd :=
  if opened_arr.isEmpty && closed_arr.isEmpty then none
  else some
    { added := opened_arr.map PeersrcPeer.dest_addr
      addedf := opened_arr.map peerflag
      dropped := closed_arr.map PeersrcPeer.dest_addr }

/-- `generate_xmit_cmd`. -/
def generateXmitCmd (id : ℕ) (want_jamstd : ℕ → Bool) (cnx : UtpexCnx) (s : PeersrcUtpex) :
    Option UtpexCmd × PeersrcUtpex :=
  let (opened_arr, closed_arr) := s.getLogMain cnx.next_seqnb want_jamstd
  let s := { s with
    cnx_db := Omap.assign (fun a b => decide (a < b)) id
      { cnx with next_seqnb := s.next_seqnb } s.cnx_db }
  (buildCmd opened_arr closed_arr, s.purgeLogIfNeeded)

end PeersrcUtpex

/-- The exchange, and what the peer of each connection holds. -/
structure UtpexNet where
  utpex : PeersrcUtpex
  held : ℕ → Multiset IpportAddr
  next_id : ℕ

namespace UtpexNet

open PeersrcUtpex

/-- A peer applies what is added, then what is dropped. -/
def receive (cmd : Option UtpexCmd) (held : Multiset IpportAddr) : Multiset IpportAddr :=
  match cmd with
  | none => held
  | some cmd => held + cmd.added - cmd.dropped

def start : UtpexNet where
  utpex := { next_seqnb := 1, log_opened := [], log_closed := [], cnx_db := [] }
  held := fun _ => 0
  next_id := 0

/-! ### Runs -/

/-- What happens to the connections, and their messages. -/
inductive Event where
  | opened (cnx : UtpexCnx) (want_jamstd : Bool)
  | closed (id : ℕ) (want_jamstd : Bool)
  | handshake (id : ℕ) (tcp_listen_ipport : IpportAddr)
  | seed (id : ℕ) (is_seed : Bool)
  | message (id : ℕ) (want_jamstd : ℕ → Bool)

/-- A change of the connection `id`. -/
def onCnx (id : ℕ) (f : UtpexCnx → UtpexCnx) (s : PeersrcUtpex) : PeersrcUtpex :=
  match Omap.find id s.cnx_db with
  | none => s
  | some cnx =>
    { s with cnx_db := Omap.assign (fun a b => decide (a < b)) id (f cnx) s.cnx_db }

/-- A connection which is opened has had no message. -/
def step (s : UtpexNet) : Event → UtpexNet
  | .opened cnx want_jamstd =>
    { s with
      utpex := s.utpex.cnxDolink s.next_id want_jamstd { cnx with next_seqnb := 0 }
      next_id := s.next_id + 1 }
  | .closed id want_jamstd =>
    match Omap.find id s.utpex.cnx_db with
    | none => s
    | some cnx => { s with utpex := s.utpex.cnxUnlink id want_jamstd cnx }
  | .handshake id tcp_listen_ipport =>
    let change (cnx : UtpexCnx) := { cnx with tcp_listen_ipport := tcp_listen_ipport }
    { s with utpex := onCnx id change s.utpex }
  | .seed id is_seed =>
    let change (cnx : UtpexCnx) := { cnx with is_seed := is_seed }
    { s with utpex := onCnx id change s.utpex }
  | .message id want_jamstd =>
    match Omap.find id s.utpex.cnx_db with
    | none => s
    | some cnx =>
      let (cmd, utpex) := s.utpex.generateXmitCmd id want_jamstd cnx
      { s with utpex := utpex, held := Function.update s.held id (receive cmd (s.held id)) }

/-! ### What is expected of it -/

/-- The address of an open connection, where it is fully qualified. -/
def listenAddr (tcp_listen_ipport : IpportAddr) : Multiset IpportAddr :=
  if tcp_listen_ipport.isFullyQualified then {tcp_listen_ipport} else 0

/-- The addresses of the open connections. -/
def listening (cnx_db : List (ℕ × UtpexCnx)) : Multiset IpportAddr :=
  (cnx_db.map fun x => listenAddr x.2.tcp_listen_ipport).sum

def addrs (peer_arr : List PeersrcPeer) : Multiset IpportAddr :=
  (peer_arr.map PeersrcPeer.dest_addr : List IpportAddr)

/-- What a message drops is held by then, and what is held after it is the addresses of the
open connections. -/
def Exact (held : Multiset IpportAddr) (opened_arr closed_arr : List PeersrcPeer)
    (current : Multiset IpportAddr) : Prop :=
  addrs closed_arr ≤ held + addrs opened_arr ∧
    receive (buildCmd opened_arr closed_arr) held = current

/-- Whichever connection a message is now generated for, it is exact. -/
def Accurate (s : UtpexNet) : Prop :=
  ∀ id cnx, Omap.find id s.utpex.cnx_db = some cnx → ∀ want_jamstd,
    Exact (s.held id) (s.utpex.getLogMain cnx.next_seqnb want_jamstd).1
      (s.utpex.getLogMain cnx.next_seqnb want_jamstd).2 (listening s.utpex.cnx_db)

/-- What the connections have still to send is in the logs. -/
def Kept (log log' : List (ℕ × PeersrcPeer)) (cnx_db : List (ℕ × UtpexCnx)) : Prop :=
  ∀ x ∈ cnx_db, x.2.next_seqnb ≠ 0 → ∀ e ∈ log, x.2.next_seqnb ≤ e.1 → e ∈ log'

/-- After a message its peer holds the addresses of the open connections, and the purge has
left what is still to be sent. -/
def StepOk (s : UtpexNet) : Event → Prop
  | .message id want_jamstd => ∀ cnx, Omap.find id s.utpex.cnx_db = some cnx →
      (s.step (.message id want_jamstd)).held id = listening s.utpex.cnx_db ∧
      Kept s.utpex.log_opened (s.step (.message id want_jamstd)).utpex.log_opened
        (s.step (.message id want_jamstd)).utpex.cnx_db ∧
      Kept s.utpex.log_closed (s.step (.message id want_jamstd)).utpex.log_closed
        (s.step (.message id want_jamstd)).utpex.cnx_db
  | _ => True

/-- A handshake leaves the address of an open connection as it was, unless no message has
been generated yet. -/
def EventOk (s : UtpexNet) : Event → Prop
  | .handshake id tcp_listen_ipport => ∀ cnx, Omap.find id s.utpex.cnx_db = some cnx →
      (∀ x ∈ s.utpex.cnx_db, x.2.next_seqnb = 0) ∨
        listenAddr cnx.tcp_listen_ipport = listenAddr tcp_listen_ipport
  | _ => True

/-! ### The logs -/

variable {s : UtpexNet} {u : PeersrcUtpex} {id seqnb from_seqnb : ℕ} {cnx : UtpexCnx}
  {want_jamstd : Bool} {log : List (ℕ × PeersrcPeer)} {peersrc_peer : PeersrcPeer}

theorem incSeqnb_eq (h : seqnb < 2 ^ 32) (hne : incSeqnb seqnb ≠ 0) :
    incSeqnb seqnb = seqnb + 1 ∧ incSeqnb seqnb < 2 ^ 32 := by
  have hlt : incSeqnb seqnb < 2 ^ 32 := Nat.mod_lt _ (by decide)
  refine ⟨?_, hlt⟩
  rw [incSeqnb] at hne ⊢
  omega

theorem insertLog_perm (hlt : ∀ e ∈ log, e.1 < seqnb) :
    (insertLog seqnb peersrc_peer log).Perm ((seqnb, peersrc_peer) :: log) := by
  have hfind : Omap.find seqnb log = none :=
    Omap.find_eq_none.2 fun _ ha => Nat.lt_irrefl _ (hlt _ ha)
  rw [insertLog, Omap.insert_of_find hfind]
  exact Omap.place_perm

theorem mem_insertLog {e : ℕ × PeersrcPeer} (hlt : ∀ e ∈ log, e.1 < seqnb) :
    e ∈ insertLog seqnb peersrc_peer log ↔ e = (seqnb, peersrc_peer) ∨ e ∈ log := by
  rw [(insertLog_perm hlt).mem_iff, List.mem_cons]

theorem insertLog_lt (hlt : ∀ e ∈ log, e.1 < seqnb) :
    ∀ e ∈ insertLog seqnb peersrc_peer log, e.1 < seqnb + 1 := by
  intro e he
  rcases (mem_insertLog hlt).1 he with rfl | he
  · exact Nat.lt_succ_self seqnb
  · exact (hlt e he).trans (Nat.lt_succ_self seqnb)

theorem addrs_insertLog (hlt : ∀ e ∈ log, e.1 < seqnb) (hle : from_seqnb ≤ seqnb) :
    addrs (since from_seqnb (insertLog seqnb peersrc_peer log)) =
      addrs (since from_seqnb log) + {peersrc_peer.dest_addr} := by
  have hinsert : (insertLog seqnb peersrc_peer log).Perm ((seqnb, peersrc_peer) :: log) :=
    insertLog_perm hlt
  have hperm := ((hinsert.filter fun e => from_seqnb ≤ e.1).map Prod.snd).map
    PeersrcPeer.dest_addr
  rw [addrs, since, Multiset.coe_eq_coe.2 hperm, List.filter_cons_of_pos (by simpa using hle),
    List.map_cons, List.map_cons, ← Multiset.cons_coe, addrs, since, add_comm,
    Multiset.singleton_add]

theorem since_eq_nil (hlt : ∀ e ∈ log, e.1 < seqnb) : since seqnb log = [] := by
  rw [since, List.map_eq_nil_iff, List.filter_eq_nil_iff]
  intro e he
  simpa using hlt e he

/-! ### A message -/

theorem receive_buildCmd (held : Multiset IpportAddr) (opened_arr closed_arr : List PeersrcPeer) :
    receive (buildCmd opened_arr closed_arr) held =
      held + addrs opened_arr - addrs closed_arr := by
  rw [buildCmd]
  split_ifs with hempty
  · rw [Bool.and_eq_true, List.isEmpty_iff, List.isEmpty_iff] at hempty
    rw [hempty.1, hempty.2]
    simp [receive, addrs]
  · rfl

theorem addrs_getLogInit (want_jamstd : ℕ → Bool) (u : PeersrcUtpex) :
    addrs (u.getLogInit want_jamstd) = listening u.cnx_db := by
  rw [getLogInit, listening]
  induction u.cnx_db with
  | nil => rfl
  | cons x l ih =>
    rw [List.map_cons, List.sum_cons, ← ih, listenAddr, List.filterMap_cons, toPeersrcPeer]
    split_ifs
    · rfl
    · rw [zero_add]

theorem exact_diff_iff {held current : Multiset IpportAddr} (hne : from_seqnb ≠ 0)
    (want_jamstd : ℕ → Bool) :
    Exact held (u.getLogMain from_seqnb want_jamstd).1 (u.getLogMain from_seqnb want_jamstd).2
        current ↔
      Behind held (addrs (since from_seqnb u.log_opened)) (addrs (since from_seqnb u.log_closed))
        current := by
  rw [Exact, receive_buildCmd, getLogMain, if_neg hne, getLogDiff]
  exact (behind_iff_told PeersrcPeer.dest_addr _ _).symm

theorem exact_init (want_jamstd : ℕ → Bool) :
    Exact 0 (u.getLogMain 0 want_jamstd).1 (u.getLogMain 0 want_jamstd).2
      (listening u.cnx_db) := by
  rw [Exact, receive_buildCmd, getLogMain, if_pos rfl, addrs_getLogInit, zero_add]
  exact ⟨Multiset.zero_le _, Multiset.sub_zero _⟩

/-! ### The purge -/

theorem minSeqnb_le {cnx_db : List (ℕ × UtpexCnx)} :
    ∀ x ∈ cnx_db, x.2.next_seqnb ≠ 0 → minSeqnb cnx_db ≤ x.2.next_seqnb := by
  have hfold : ∀ (l : List (ℕ × UtpexCnx)) (m : ℕ),
      l.foldl (fun m x => if x.2.next_seqnb = 0 then m else min m x.2.next_seqnb) m ≤ m ∧
      ∀ x ∈ l, x.2.next_seqnb ≠ 0 →
        l.foldl (fun m x => if x.2.next_seqnb = 0 then m else min m x.2.next_seqnb) m ≤
          x.2.next_seqnb := by
    intro l
    induction l with
    | nil => exact fun m => ⟨le_rfl, nofun⟩
    | cons y l ih =>
      intro m
      obtain ⟨hle, hmem⟩ := ih (if y.2.next_seqnb = 0 then m else min m y.2.next_seqnb)
      have hhead : (if y.2.next_seqnb = 0 then m else min m y.2.next_seqnb) ≤ m := by
        split_ifs
        · exact le_rfl
        · exact min_le_left _ _
      refine ⟨hle.trans hhead, fun x hx hne => ?_⟩
      rcases List.mem_cons.1 hx with rfl | hx
      · rw [if_neg hne] at hle
        rw [List.foldl_cons, if_neg hne]
        exact hle.trans (min_le_right _ _)
      · exact hmem x hx hne
  exact (hfold cnx_db _).2

/-- What is dropped in front comes before the least number. -/
theorem mem_dropWhile {n : ℕ} {e : ℕ × PeersrcPeer} (he : e ∈ log) (hle : n ≤ e.1) :
    e ∈ log.dropWhile fun e => e.1 < n := by
  induction log with
  | nil => cases he
  | cons e' log ih =>
    rw [List.dropWhile_cons]
    split_ifs with hlt
    · rcases List.mem_cons.1 he with rfl | he
      · exact absurd (of_decide_eq_true hlt) (Nat.not_lt.2 hle)
      · exact ih he
    · exact he

theorem since_dropWhile {n : ℕ} (hle : n ≤ from_seqnb) :
    since from_seqnb (log.dropWhile fun e => e.1 < n) = since from_seqnb log := by
  induction log with
  | nil => rfl
  | cons e log ih =>
    rw [List.dropWhile_cons]
    split_ifs with hlt
    · have hnot : ¬from_seqnb ≤ e.1 := by
        have := of_decide_eq_true hlt
        omega
      rw [ih, since, since, List.filter_cons_of_neg (by simpa using hnot)]
    · rfl

/-! ### What each function does -/

theorem toPeersrcPeer_cases (want_jamstd : Bool) (cnx : UtpexCnx) :
    (toPeersrcPeer want_jamstd cnx = none ∧ listenAddr cnx.tcp_listen_ipport = 0) ∨
      ∃ peersrc_peer, toPeersrcPeer want_jamstd cnx = some peersrc_peer ∧
        listenAddr cnx.tcp_listen_ipport = {peersrc_peer.dest_addr} := by
  rw [toPeersrcPeer, listenAddr]
  split_ifs
  · exact Or.inr ⟨_, rfl, rfl⟩
  · exact Or.inl ⟨rfl, rfl⟩

/-- The numbers of the logs are all given, and none is given twice. -/
structure Numbered (u : PeersrcUtpex) : Prop where
  lt : u.next_seqnb < 2 ^ 32
  opened : ∀ e ∈ u.log_opened, e.1 < u.next_seqnb
  closed : ∀ e ∈ u.log_closed, e.1 < u.next_seqnb

/-- What linking a connection does, while the numbers do not wrap. -/
theorem cnxDolink_spec (id : ℕ) (want_jamstd : Bool) (cnx : UtpexCnx) (h : Numbered u)
    (hne : (u.cnxDolink id want_jamstd cnx).next_seqnb ≠ 0) :
    Numbered (u.cnxDolink id want_jamstd cnx) ∧
      u.next_seqnb ≤ (u.cnxDolink id want_jamstd cnx).next_seqnb ∧
      (u.cnxDolink id want_jamstd cnx).cnx_db =
        Omap.place (fun a b => decide (a < b)) id cnx u.cnx_db ∧
      (u.cnxDolink id want_jamstd cnx).log_closed = u.log_closed ∧
      ∀ from_seqnb ≤ u.next_seqnb,
        addrs (since from_seqnb (u.cnxDolink id want_jamstd cnx).log_opened) =
          addrs (since from_seqnb u.log_opened) + listenAddr cnx.tcp_listen_ipport := by
  rcases toPeersrcPeer_cases want_jamstd cnx with ⟨heq, haddr⟩ | ⟨peersrc_peer, heq, haddr⟩
  · rw [cnxDolink, heq, haddr]
    exact ⟨⟨h.lt, h.opened, h.closed⟩, le_rfl, rfl, rfl, fun _ _ => (add_zero _).symm⟩
  · rw [cnxDolink, heq] at hne ⊢
    obtain ⟨hinc, hlt⟩ := incSeqnb_eq h.lt hne
    rw [haddr]
    dsimp only
    rw [hinc]
    refine ⟨⟨hinc ▸ hlt, insertLog_lt h.opened, fun e he => ?_⟩, Nat.le_succ _, rfl, rfl,
      fun from_seqnb hle => addrs_insertLog h.opened hle⟩
    exact (h.closed e he).trans (Nat.lt_succ_self _)

/-- What unlinking a connection does, while the numbers do not wrap. -/
theorem cnxUnlink_spec (id : ℕ) (want_jamstd : Bool) (cnx : UtpexCnx) (h : Numbered u)
    (hne : (u.cnxUnlink id want_jamstd cnx).next_seqnb ≠ 0) :
    Numbered (u.cnxUnlink id want_jamstd cnx) ∧
      u.next_seqnb ≤ (u.cnxUnlink id want_jamstd cnx).next_seqnb ∧
      (u.cnxUnlink id want_jamstd cnx).cnx_db = Omap.erase id u.cnx_db ∧
      (u.cnxUnlink id want_jamstd cnx).log_opened = u.log_opened ∧
      ∀ from_seqnb ≤ u.next_seqnb,
        addrs (since from_seqnb (u.cnxUnlink id want_jamstd cnx).log_closed) =
          addrs (since from_seqnb u.log_closed) + listenAddr cnx.tcp_listen_ipport := by
  rcases toPeersrcPeer_cases want_jamstd cnx with ⟨heq, haddr⟩ | ⟨peersrc_peer, heq, haddr⟩
  · rw [cnxUnlink, heq, haddr]
    exact ⟨⟨h.lt, h.opened, h.closed⟩, le_rfl, rfl, rfl, fun _ _ => (add_zero _).symm⟩
  · rw [cnxUnlink, heq] at hne ⊢
    obtain ⟨hinc, hlt⟩ := incSeqnb_eq h.lt hne
    rw [haddr]
    dsimp only
    rw [hinc]
    refine ⟨⟨hinc ▸ hlt, fun e he => ?_, insertLog_lt h.closed⟩, Nat.le_succ _, rfl, rfl,
      fun from_seqnb hle => addrs_insertLog h.closed hle⟩
    exact (h.opened e he).trans (Nat.lt_succ_self _)

theorem onCnx_of_some (f : UtpexCnx → UtpexCnx) (hfind : Omap.find id u.cnx_db = some cnx) :
    onCnx id f u =
      { u with cnx_db := Omap.assign (fun a b => decide (a < b)) id (f cnx) u.cnx_db } := by
  rw [onCnx, hfind]

theorem onCnx_of_none (f : UtpexCnx → UtpexCnx) (hfind : Omap.find id u.cnx_db = none) :
    onCnx id f u = u := by
  rw [onCnx, hfind]

/-! ### The invariant -/

/-- What holds whatever the handshakes say. -/
structure Basic (s : UtpexNet) : Prop where
  keyed : Omap.Keyed s.utpex.cnx_db
  fresh : ∀ x ∈ s.utpex.cnx_db, x.1 < s.next_id
  numbered : Numbered s.utpex
  cnx_le : ∀ x ∈ s.utpex.cnx_db, x.2.next_seqnb ≤ s.utpex.next_seqnb
  unstarted : ∀ x ∈ s.utpex.cnx_db, x.2.next_seqnb = 0 → s.held x.1 = 0
  unborn : ∀ id, s.next_id ≤ id → s.held id = 0

theorem basic_start : Basic start :=
  ⟨List.nodup_nil, nofun, ⟨by decide, nofun, nofun⟩, nofun, nofun, fun _ _ => rfl⟩

/-- What each peer holds is the addresses of the connections, with what it has still to
be told. -/
def Lagging (s : UtpexNet) : Prop :=
  ∀ x ∈ s.utpex.cnx_db, x.2.next_seqnb ≠ 0 →
    Behind (s.held x.1) (addrs (since x.2.next_seqnb s.utpex.log_opened))
      (addrs (since x.2.next_seqnb s.utpex.log_closed)) (listening s.utpex.cnx_db)

theorem accurate_iff (h : Basic s) : Accurate s ↔ Lagging s := by
  constructor
  · rintro hall ⟨id, cnx⟩ hx hne
    exact (exact_diff_iff hne _).1
      (hall id cnx ((Omap.find_eq_some h.keyed).2 hx) fun _ => false)
  · intro hall id cnx hfind want_jamstd
    have hx := Omap.mem_of_find hfind
    by_cases hne : cnx.next_seqnb = 0
    · rw [h.unstarted _ hx hne, hne]
      exact exact_init want_jamstd
    · exact (exact_diff_iff hne want_jamstd).2 (hall _ hx hne)

theorem step_closed (want_jamstd : Bool) (hfind : Omap.find id s.utpex.cnx_db = some cnx) :
    s.step (.closed id want_jamstd) =
      { s with utpex := s.utpex.cnxUnlink id want_jamstd cnx } := by
  rw [step, hfind]

theorem step_message (want_jamstd : ℕ → Bool)
    (hfind : Omap.find id s.utpex.cnx_db = some cnx) :
    s.step (.message id want_jamstd) = { s with
      utpex := (s.utpex.generateXmitCmd id want_jamstd cnx).2
      held := Function.update s.held id
        (receive (s.utpex.generateXmitCmd id want_jamstd cnx).1 (s.held id)) } := by
  rw [step, hfind]

theorem Basic.onCnx (h : Basic s) (id : ℕ) (f : UtpexCnx → UtpexCnx)
    (hf : ∀ cnx, (f cnx).next_seqnb = cnx.next_seqnb) :
    Basic { s with utpex := onCnx id f s.utpex } := by
  cases hfind : Omap.find id s.utpex.cnx_db with
  | none =>
    rw [onCnx_of_none f hfind]
    exact h
  | some cnx =>
    have hcnx := Omap.mem_of_find hfind
    rw [onCnx_of_some f hfind]
    refine ⟨Omap.keyed_assign h.keyed, ?_, ⟨h.numbered.lt, h.numbered.opened,
      h.numbered.closed⟩, ?_, ?_, h.unborn⟩
    · intro x hx
      rcases Omap.mem_place.1 hx with rfl | hx
      · exact h.fresh (id, cnx) hcnx
      · exact h.fresh x (Omap.mem_erase.1 hx).1
    · intro x hx
      rcases Omap.mem_place.1 hx with rfl | hx
      · exact (hf cnx).trans_le (h.cnx_le (id, cnx) hcnx)
      · exact h.cnx_le x (Omap.mem_erase.1 hx).1
    · intro x hx hzero
      rcases Omap.mem_place.1 hx with rfl | hx
      · exact h.unstarted (id, cnx) hcnx ((hf cnx).symm.trans hzero)
      · exact h.unstarted x (Omap.mem_erase.1 hx).1 hzero

theorem Basic.opened (h : Basic s) (cnx : UtpexCnx) (want_jamstd : Bool)
    (hne : (s.step (.opened cnx want_jamstd)).utpex.next_seqnb ≠ 0) :
    Basic (s.step (.opened cnx want_jamstd)) := by
  obtain ⟨hnumbered, hle, hdb, -, -⟩ :=
    cnxDolink_spec s.next_id want_jamstd { cnx with next_seqnb := 0 } h.numbered hne
  have hfind : Omap.find s.next_id s.utpex.cnx_db = none :=
    Omap.find_eq_none.2 fun _ ha => Nat.lt_irrefl _ (h.fresh _ ha)
  have hmem : ∀ x ∈ (s.step (.opened cnx want_jamstd)).utpex.cnx_db,
      x = (s.next_id, { cnx with next_seqnb := 0 }) ∨ x ∈ s.utpex.cnx_db := by
    intro x hx
    exact Omap.mem_place.1 (hdb ▸ hx)
  refine ⟨?_, ?_, hnumbered, ?_, ?_, ?_⟩
  · show Omap.Keyed (s.utpex.cnxDolink _ _ _).cnx_db
    rw [hdb]
    exact Omap.keyed_place h.keyed hfind
  · intro x hx
    rcases hmem x hx with rfl | hx
    · exact Nat.lt_succ_self _
    · exact (h.fresh x hx).trans (Nat.lt_succ_self _)
  · intro x hx
    rcases hmem x hx with rfl | hx
    · exact Nat.zero_le _
    · exact (h.cnx_le x hx).trans hle
  · intro x hx hzero
    rcases hmem x hx with rfl | hx
    · exact h.unborn _ le_rfl
    · exact h.unstarted x hx hzero
  · exact fun id hid => h.unborn id ((Nat.le_succ _).trans hid)

theorem Basic.closed (h : Basic s) (id : ℕ) (want_jamstd : Bool)
    (hne : (s.step (.closed id want_jamstd)).utpex.next_seqnb ≠ 0) :
    Basic (s.step (.closed id want_jamstd)) := by
  cases hfind : Omap.find id s.utpex.cnx_db with
  | none =>
    rw [step, hfind]
    exact h
  | some cnx =>
    rw [step_closed want_jamstd hfind] at hne ⊢
    obtain ⟨hnumbered, hle, hdb, -, -⟩ :=
      cnxUnlink_spec id want_jamstd cnx h.numbered hne
    have hmem : ∀ x ∈ (s.utpex.cnxUnlink id want_jamstd cnx).cnx_db, x ∈ s.utpex.cnx_db := by
      intro x hx
      rw [hdb] at hx
      exact (Omap.mem_erase.1 hx).1
    refine ⟨?_, fun x hx => h.fresh x (hmem x hx), hnumbered,
      fun x hx => (h.cnx_le x (hmem x hx)).trans hle,
      fun x hx => h.unstarted x (hmem x hx), h.unborn⟩
    show Omap.Keyed (s.utpex.cnxUnlink _ _ _).cnx_db
    rw [hdb]
    exact Omap.keyed_erase h.keyed

theorem Basic.message (h : Basic s) (id : ℕ) (want_jamstd : ℕ → Bool)
    (hne : (s.step (.message id want_jamstd)).utpex.next_seqnb ≠ 0) :
    Basic (s.step (.message id want_jamstd)) := by
  cases hfind : Omap.find id s.utpex.cnx_db with
  | none =>
    rw [step, hfind]
    exact h
  | some cnx =>
    have hcnx := Omap.mem_of_find hfind
    rw [step_message want_jamstd hfind] at hne ⊢
    have hsub : ∀ (n : ℕ) (log : List (ℕ × PeersrcPeer)),
        ∀ e ∈ log.dropWhile fun e => e.1 < n, e ∈ log :=
      fun n log e he => (List.dropWhile_sublist _).subset he
    refine ⟨Omap.keyed_assign h.keyed, ?_, ⟨h.numbered.lt,
      fun e he => h.numbered.opened e (hsub _ _ e he),
      fun e he => h.numbered.closed e (hsub _ _ e he)⟩, ?_, ?_, ?_⟩
    · intro x hx
      rcases Omap.mem_place.1 hx with rfl | hx
      · exact h.fresh (id, cnx) hcnx
      · exact h.fresh x (Omap.mem_erase.1 hx).1
    · intro x hx
      rcases Omap.mem_place.1 hx with rfl | hx
      · exact le_rfl
      · exact h.cnx_le x (Omap.mem_erase.1 hx).1
    · intro x hx hzero
      rcases Omap.mem_place.1 hx with rfl | hx
      · exact absurd hzero hne
      · obtain ⟨hx, hid⟩ := Omap.mem_erase.1 hx
        exact (Function.update_of_ne hid _ _).trans (h.unstarted x hx hzero)
    · intro id' hid'
      have hlt := h.fresh (id, cnx) hcnx
      have hid : id' ≠ id := (hlt.trans_le hid').ne'
      exact (Function.update_of_ne hid _ _).trans (h.unborn id' hid')

theorem step_basic (h : Basic s) (e : Event) (hne : (s.step e).utpex.next_seqnb ≠ 0) :
    Basic (s.step e) := by
  cases e with
  | opened cnx want_jamstd => exact h.opened cnx want_jamstd hne
  | closed id want_jamstd => exact h.closed id want_jamstd hne
  | handshake id tcp_listen_ipport => exact h.onCnx id _ fun _ => rfl
  | seed id is_seed => exact h.onCnx id _ fun _ => rfl
  | message id want_jamstd => exact h.message id want_jamstd hne

/-! ### One step -/

theorem listening_erase (h : Basic s) (hfind : Omap.find id s.utpex.cnx_db = some cnx) :
    listening s.utpex.cnx_db =
      listenAddr cnx.tcp_listen_ipport + listening (Omap.erase id s.utpex.cnx_db) :=
  Omap.sum_erase h.keyed (Omap.mem_of_find hfind) _

theorem listening_onCnx (f : UtpexCnx → UtpexCnx)
    (hfind : Omap.find id s.utpex.cnx_db = some cnx) :
    listening (onCnx id f s.utpex).cnx_db =
      listenAddr (f cnx).tcp_listen_ipport + listening (Omap.erase id s.utpex.cnx_db) := by
  rw [onCnx_of_some f hfind]
  exact Omap.sum_place _

theorem opened_lagging (h : Basic s) (hlag : Lagging s) (cnx : UtpexCnx) (want_jamstd : Bool)
    (hne : (s.step (.opened cnx want_jamstd)).utpex.next_seqnb ≠ 0) :
    Lagging (s.step (.opened cnx want_jamstd)) := by
  obtain ⟨-, -, hdb, hclosed, hopened⟩ :=
    cnxDolink_spec s.next_id want_jamstd { cnx with next_seqnb := 0 } h.numbered hne
  have hlistening : listening (s.step (.opened cnx want_jamstd)).utpex.cnx_db =
      listening s.utpex.cnx_db + listenAddr cnx.tcp_listen_ipport := by
    show listening (s.utpex.cnxDolink _ _ _).cnx_db = _
    rw [hdb, listening, Omap.sum_place, add_comm]
    rfl
  intro x hx hstarted
  rw [hlistening]
  show Behind (s.held x.1) (addrs (since _ (s.utpex.cnxDolink _ _ _).log_opened))
    (addrs (since _ (s.utpex.cnxDolink _ _ _).log_closed)) _
  rcases Omap.mem_place.1 (hdb ▸ hx) with rfl | hx
  · exact absurd rfl hstarted
  · rw [hopened _ (h.cnx_le x hx), hclosed, behind_open_iff]
    exact hlag x hx hstarted

theorem closed_lagging (h : Basic s) (hlag : Lagging s) (id : ℕ) (want_jamstd : Bool)
    (hne : (s.step (.closed id want_jamstd)).utpex.next_seqnb ≠ 0) :
    Lagging (s.step (.closed id want_jamstd)) := by
  cases hfind : Omap.find id s.utpex.cnx_db with
  | none =>
    rw [step, hfind]
    exact hlag
  | some cnx =>
    rw [step_closed want_jamstd hfind] at hne ⊢
    obtain ⟨-, -, hdb, hopened, hclosed⟩ := cnxUnlink_spec id want_jamstd cnx h.numbered hne
    intro x hx hstarted
    dsimp only at hx ⊢
    rw [hdb] at hx
    have hx := (Omap.mem_erase.1 hx).1
    rw [hclosed _ (h.cnx_le x hx), hopened, behind_close_iff, hdb, add_comm,
      ← listening_erase h hfind]
    exact hlag x hx hstarted

/-- A change of the connections leaves the peers as far behind as they were exactly where
no peer has had a message, or the addresses stay. -/
theorem onCnx_lagging_iff (h : Basic s) (hlag : Lagging s) (f : UtpexCnx → UtpexCnx)
    (hf : ∀ cnx, (f cnx).next_seqnb = cnx.next_seqnb)
    (hfind : Omap.find id s.utpex.cnx_db = some cnx) :
    Lagging { s with utpex := onCnx id f s.utpex } ↔
      (∀ x ∈ s.utpex.cnx_db, x.2.next_seqnb = 0) ∨
        listening s.utpex.cnx_db = listening (onCnx id f s.utpex).cnx_db := by
  have hcnx := Omap.mem_of_find hfind
  have hlog : (onCnx id f s.utpex).log_opened = s.utpex.log_opened ∧
      (onCnx id f s.utpex).log_closed = s.utpex.log_closed := by
    rw [onCnx_of_some f hfind]
    exact ⟨rfl, rfl⟩
  have hmem : ∀ {x}, x ∈ (onCnx id f s.utpex).cnx_db ↔
      x = (id, f cnx) ∨ x ∈ s.utpex.cnx_db ∧ x.1 ≠ id := by
    intro x
    rw [onCnx_of_some f hfind]
    exact Omap.mem_place.trans (or_congr_right Omap.mem_erase)
  constructor
  · intro hlag'
    refine or_iff_not_imp_left.2 fun hcon => ?_
    obtain ⟨x, hx, hstarted⟩ := not_forall₂.1 hcon
    -- a peer which has had a message holds what it held
    obtain ⟨y, hy, hid, hseqnb⟩ : ∃ y ∈ (onCnx id f s.utpex).cnx_db,
        y.1 = x.1 ∧ y.2.next_seqnb = x.2.next_seqnb := by
      by_cases hid : x.1 = id
      · have heq : x.2 = cnx := h.keyed.eq (k := id) (hid ▸ hx) hcnx
        exact ⟨(id, f cnx), hmem.2 (Or.inl rfl), hid.symm, heq ▸ hf cnx⟩
      · exact ⟨x, hmem.2 (Or.inr ⟨hx, hid⟩), rfl, rfl⟩
    have hbehind := hlag' y hy (hseqnb ▸ hstarted)
    dsimp only at hbehind
    rw [hlog.1, hlog.2, hid, hseqnb] at hbehind
    exact ((hlag x hx hstarted).congr_iff).1 hbehind
  · rintro (hnone | heq) x hx hstarted
    · rcases hmem.1 hx with rfl | ⟨hx, -⟩
      · exact absurd ((hf cnx).trans (hnone _ hcnx)) hstarted
      · exact absurd (hnone x hx) hstarted
    · dsimp only
      rw [hlog.1, hlog.2, ← heq]
      rcases hmem.1 hx with rfl | ⟨hx, -⟩
      · rw [hf] at hstarted ⊢
        exact hlag _ hcnx hstarted
      · exact hlag x hx hstarted

theorem message_lagging (h : Basic s) (hlag : Lagging s) (id : ℕ) (want_jamstd : ℕ → Bool) :
    Lagging (s.step (.message id want_jamstd)) := by
  cases hfind : Omap.find id s.utpex.cnx_db with
  | none =>
    rw [step, hfind]
    exact hlag
  | some cnx =>
    have hcnx := Omap.mem_of_find hfind
    have hexact := (accurate_iff h).2 hlag id cnx hfind want_jamstd
    rw [step_message want_jamstd hfind]
    have hlistening : listening (s.utpex.generateXmitCmd id want_jamstd cnx).2.cnx_db =
        listening s.utpex.cnx_db := by
      rw [listening_erase h hfind]
      exact Omap.sum_place _
    intro x hx hstarted
    have hle := minSeqnb_le x hx hstarted
    dsimp only [generateXmitCmd, purgeLogIfNeeded] at hle hlistening ⊢
    rw [since_dropWhile hle, since_dropWhile hle, hlistening]
    rcases Omap.mem_place.1 hx with rfl | hx
    · -- its peer has just been told everything
      rw [Function.update_self, hexact.2, since_eq_nil h.numbered.opened,
        since_eq_nil h.numbered.closed]
      exact behind_refl _
    · obtain ⟨hx, hid⟩ := Omap.mem_erase.1 hx
      rw [Function.update_of_ne hid]
      exact hlag x hx hstarted

theorem message_ok (h : Basic s) (hlag : Lagging s) (id : ℕ) (want_jamstd : ℕ → Bool) :
    StepOk s (.message id want_jamstd) := by
  intro cnx hfind
  have hexact := (accurate_iff h).2 hlag id cnx hfind want_jamstd
  rw [step_message want_jamstd hfind]
  refine ⟨?_, fun x hx hstarted e he hle => ?_, fun x hx hstarted e he hle => ?_⟩
  · exact (Function.update_self _ _ _).trans hexact.2
  · exact mem_dropWhile he ((minSeqnb_le x hx hstarted).trans hle)
  · exact mem_dropWhile he ((minSeqnb_le x hx hstarted).trans hle)

/-- **One step**: the peers can still be told exactly where a handshake leaves the addresses
as they are, or no message has been generated. -/
theorem step_lagging_iff (h : Basic s) (hlag : Lagging s) (e : Event)
    (hne : (s.step e).utpex.next_seqnb ≠ 0) :
    Lagging (s.step e) ∧ StepOk s e ↔ EventOk s e := by
  cases e with
  | opened cnx want_jamstd =>
    exact iff_of_true ⟨opened_lagging h hlag cnx want_jamstd hne, trivial⟩ trivial
  | closed id want_jamstd =>
    exact iff_of_true ⟨closed_lagging h hlag id want_jamstd hne, trivial⟩ trivial
  | handshake id tcp_listen_ipport =>
    refine (and_iff_left trivial).trans ?_
    cases hfind : Omap.find id s.utpex.cnx_db with
    | none =>
      rw [step, onCnx_of_none _ hfind]
      refine iff_of_true hlag fun cnx hcnx => ?_
      rw [hfind] at hcnx
      exact nomatch hcnx
    | some cnx =>
      rw [step, onCnx_lagging_iff h hlag
        (fun cnx => { cnx with tcp_listen_ipport := tcp_listen_ipport }) (fun _ => rfl) hfind,
        listening_onCnx _ hfind, listening_erase h hfind, add_left_inj]
      constructor
      · intro hor cnx' hcnx'
        rwa [← Option.some.inj (hfind.symm.trans hcnx')]
      · exact fun hok => hok cnx hfind
  | seed id is_seed =>
    refine iff_of_true ⟨?_, trivial⟩ trivial
    cases hfind : Omap.find id s.utpex.cnx_db with
    | none =>
      rw [step, onCnx_of_none _ hfind]
      exact hlag
    | some cnx =>
      rw [step, onCnx_lagging_iff h hlag (fun cnx => { cnx with is_seed := is_seed })
        (fun _ => rfl) hfind, listening_onCnx _ hfind, listening_erase h hfind]
      exact Or.inr rfl
  | message id want_jamstd =>
    exact iff_of_true ⟨message_lagging h hlag id want_jamstd,
      message_ok h hlag id want_jamstd⟩ trivial

/-- **The exchange of peers**: until the numbers wrap, whoever is told next holds the
addresses of the open connections, and no purge takes out what is still to be sent,
exactly in the runs where no address changes under an open connection once a message
has been generated. -/
theorem always_accurate_iff (evs : List Event)
    (hne : Always step (fun s => s.utpex.next_seqnb ≠ 0) start evs) :
    Always step Accurate start evs ∧ Guarded step StepOk start evs ↔
      Guarded step EventOk start evs := by
  refine always_and_guarded_iff (Q := Basic) (fun s e hs _ hne => step_basic hs e hne) ?_ ?_
    basic_start hne
  · intro s e hs haccurate hne
    rw [accurate_iff (step_basic hs e hne)]
    exact step_lagging_iff hs ((accurate_iff hs).1 haccurate) e hne
  · exact (accurate_iff basic_start).2 nofun

/-- A connection whose peer listens at that port of `10.0.0.1`, or has not said where. -/
def cnxOfPort (port : Option UInt16) : UtpexCnx where
  remote_peerid := ⟨List.replicate 20 0, length_zeros⟩
  is_seed := false
  tcp_listen_ipport := { ipaddr := port.map fun _ => 0x0a000001, port := port.getD 0 }
  next_seqnb := 0

/-- A second connection to an address takes the place of the first one. -/
def reopened : List Event :=
  [.opened (cnxOfPort (some 6881)) false, .message 0 fun _ => false,
    .opened (cnxOfPort (some 6881)) true, .closed 0 false, .message 1 fun _ => false]

theorem always_accurate_reopened :
    Always step (fun s => s.utpex.next_seqnb ≠ 0) start reopened ∧
      Always step Accurate start reopened := by
  have hne : Always step (fun s => s.utpex.next_seqnb ≠ 0) start reopened := by decide
  exact ⟨hne, ((always_accurate_iff _ hne).2
    ⟨trivial, trivial, trivial, trivial, trivial, trivial⟩).1⟩

/-- A peer says where it listens after the other one has had a message. -/
def learnedLater : List Event :=
  [.opened (cnxOfPort (some 6881)) false, .opened (cnxOfPort none) false, .message 0 fun _ => false,
    .handshake 1 { ipaddr := some 0x0a000001, port := 6882 }, .message 0 fun _ => false]

/-- What is learned later is not told. -/
theorem not_always_accurate :
    ¬(Always step Accurate start learnedLater ∧ Guarded step StepOk start learnedLater) := by
  rintro ⟨-, -, -, -, -, hok, -⟩
  exact absurd (hok _ rfl).1 (by decide)

end UtpexNet

end Neoip
