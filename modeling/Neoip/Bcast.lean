/-
Neoip/Bcast.lean

The broadcast extension: `bt_utmsg_bcast_t`.

A message is an operation and a payload under a random nonce.  Its originator
sends it, bencoded, to every connection of the extension; a peer which receives
it looks for its nonce in `seen_nonce_db`, and when it is not there puts it
there, encodes the message again for all its connections but the one it came
on, and passes the payload to the handler of the operation, if it has one.

Here a whole network runs the extension: each connection is a queue of
payloads, which delivers them in order.  A command which is longer than the
receiver takes makes it delete the connection (`isOpen`); the theorems are
about runs in which this has not happened, so that every connection is
reliable.

The network floods in the sense of `Flood` (`Floods`): what it has in flight is
the encoding of what the flooded network has, and what it has passed to its
handlers is what was handed up to it and has a handler.

Main result: `floods_once`, over all runs of any such network.
-/
import Neoip.Flood
import Neoip.GenId
import Neoip.Metainfo
import Mathlib.Data.Fin.VecNotation

namespace Neoip

/-- `bt_utmsg_bcast_nonce_t`. -/
abbrev BcastNonce := GenId 10

/-- A message: its nonce, its operation and its payload. -/
structure BcastMsg where
  nonce : BcastNonce
  opstr : Datum
  payload : Datum
deriving DecidableEq, Repr

namespace BcastMsg

/-- `build_cmd`: a type, which is `BCAST`, and a map.  The keys are `n`, `o` and `p`. -/
def buildCmd (msg : BcastMsg) : Datum :=
  0x5 :: Bencode.fromDvar (.map [([110], .string msg.nonce.toStdstring),
    ([111], .string msg.opstr), ([112], .string msg.payload)])

/-- How `parse_pkt` reads a message.  `hash` is the one which makes an identifier of a datum of
another length. -/
def readPkt (hash : Datum → BcastNonce) (pkt : Datum) : Except String BcastMsg :=
  match Bencode.toDvar pkt with
  | some (.map inmap) =>
    match Dvar.getStr [110] inmap with
    | none => .error "unable to find 'n' bcast payload"
    | some n =>
      match Dvar.getStr [111] inmap with
      | none => .error "unable to find 'o' bcast payload"
      | some opstr =>
        match Dvar.getStr [112] inmap with
        | none => .error "unable to find 'p' bcast payload"
        | some payload => .ok ⟨.ofDatum hash n, opstr, payload⟩
  | _ => .error "unable to find bcast payload as dvar_type_t::MAP"

/-- A message which was built is read back as it was. -/
theorem readPkt_buildCmd (hash : Datum → BcastNonce) (msg : BcastMsg)
    (hopstr : msg.opstr.length < 2 ^ 31) (hpayload : msg.payload.length < 2 ^ 31) :
    readPkt hash msg.buildCmd.tail = .ok msg := by
  have hok : (Dvar.map [([110], .string msg.nonce.toStdstring), ([111], .string msg.opstr),
      ([112], .string msg.payload)]).Ok := by
    simp only [Dvar.Ok, Dvar.OkMap, GenId.length_toStdstring, hopstr, hpayload]
    refine ⟨?_, by simp⟩
    show ([[110], [111], [112]] : List Datum).Pairwise (· < ·)
    decide
  have hread : readPkt hash msg.buildCmd.tail
      = .ok ⟨.ofDatum hash msg.nonce.toStdstring, msg.opstr, msg.payload⟩ := by
    rw [readPkt, buildCmd, List.tail_cons, Bencode.toDvar_fromDvar hok]
    rfl
  rw [hread, GenId.ofDatum_toStdstring]

end BcastMsg

/-! ### The network -/

/-- A network of peers which run the extension: the ends of their connections, and the objects
each of them has. -/
structure BcastNet (P C : Type*) extends Links P C where
  /-- `cnx_db`, an end for each connection. -/
  cnx_db : P → List C
  mem_cnx_db : ∀ p c, c ∈ cnx_db p ↔ owner c = p
  nodup_cnx_db : ∀ p, (cnx_db p).Nodup
  /-- The operations of `handler_db`. -/
  handler_db : P → List Datum
  hash : Datum → BcastNonce

/-- The state of the network.  `queue` is what was sent from an end and not received at the
other one, `notified` what was passed to the handlers, with its nonce. -/
structure BcastState (P C : Type*) where
  seen_nonce_db : P → List BcastNonce
  notified : P → List BcastMsg
  queue : C → List Datum
  isOpen : C → Bool

/-- `RECV_CMD_MAXLEN`. -/
def recvCmdMaxlen : ℕ := 129 * 1024

/-- What happens in the network.  The nonce of a message is what `build_random` returned. -/
inductive BcastEv (P C : Type*)
  | originatePkt (p : P) (msg : BcastMsg)
  | deliver (c : C)

namespace BcastNet

set_option linter.unusedSectionVars false

variable {P C : Type*} [DecidableEq P] [DecidableEq C] (net : BcastNet P C)

def start : BcastState P C where
  seen_nonce_db := fun _ => []
  notified := fun _ => []
  queue := fun _ => []
  isOpen := fun _ => true

/-- `send_cmd`, on a connection which may have been deleted. -/
def sendCmd (s : BcastState P C) (c : C) (cmd : Datum) : BcastState P C :=
  if s.isOpen c then { s with queue := Function.update s.queue c (s.queue c ++ [cmd]) } else s

/-- `forward_cmd`. -/
def forwardCmd (p : P) (cmd : Datum) (src_cnx : Option C) (s : BcastState P C) : BcastState P C :=
  (net.cnx_db p).foldl
    (fun s bcast_cnx => if src_cnx = some bcast_cnx then s else sendCmd s bcast_cnx cmd) s

/-- `expireset_t::insert`; nothing expires. -/
def insertNonce (s : BcastState P C) (p : P) (nonce : BcastNonce) : BcastState P C :=
  { s with seen_nonce_db := Function.update s.seen_nonce_db p (nonce :: s.seen_nonce_db p) }

/-- `expireset_t::update`. -/
def updateNonce (s : BcastState P C) (p : P) (nonce : BcastNonce) : BcastState P C :=
  insertNonce { s with
    seen_nonce_db := Function.update s.seen_nonce_db p ((s.seen_nonce_db p).erase nonce) } p nonce

/-- `originate_pkt`. -/
def originatePkt (s : BcastState P C) (p : P) (msg : BcastMsg) : BcastState P C :=
  net.forwardCmd p msg.buildCmd none (updateNonce s p msg.nonce)

/-- `handler_by_opstr`, and `notify_recved_pkt` of the handler which is found. -/
def notifyHandler (p : P) (msg : BcastMsg) (s : BcastState P C) : BcastState P C :=
  if msg.opstr ∈ net.handler_db p then
    { s with notified := Function.update s.notified p (s.notified p ++ [msg]) }
  else s

/-- `parse_pkt`.  An error is logged, and nothing else comes of it. -/
def parsePkt (s : BcastState P C) (src_cnx : C) (pkt : Datum) : BcastState P C :=
  let p := net.owner src_cnx
  match BcastMsg.readPkt net.hash pkt with
  | .error _ => s
  | .ok msg =>
    if msg.nonce ∈ s.seen_nonce_db p then s
    else net.notifyHandler p msg
      (net.forwardCmd p msg.buildCmd (some src_cnx) (insertNonce s p msg.nonce))

/-- The next command of a connection is received.  Its length counts its type too.  The type of
the message is the one the peers have agreed upon; no other is sent here. -/
def recvCmd (s : BcastState P C) (c : C) : BcastState P C :=
  if s.isOpen c then
    match s.queue c with
    | [] => s
    | cmd :: cmds =>
      if recvCmdMaxlen < 1 + cmd.length then
        { s with isOpen := fun c' => s.isOpen c' && c' ≠ c && c' ≠ net.other c }
      else
        let s := { s with queue := Function.update s.queue c cmds }
        match cmd with
        | 0x5 :: pkt => net.parsePkt s (net.other c) pkt
        | _ => s
  else s

def step (s : BcastState P C) : BcastEv P C → BcastState P C
  | .originatePkt p msg => net.originatePkt s p msg
  | .deliver c => net.recvCmd s c

/-! ### Forwarding -/

section Forward

variable {net} {s : BcastState P C} {p : P} {src_cnx : Option C} {cmd : Datum}

theorem foldl_sendCmd {cnxs : List C} (hnodup : cnxs.Nodup) (hopen : ∀ c, s.isOpen c) :
    cnxs.foldl (fun s bcast_cnx =>
        if src_cnx = some bcast_cnx then s else sendCmd s bcast_cnx cmd) s
      = { s with queue := fun c =>
          if c ∈ cnxs ∧ src_cnx ≠ some c then s.queue c ++ [cmd] else s.queue c } := by
  induction cnxs generalizing s with
  | nil => simp
  | cons bcast_cnx cnxs ih =>
    obtain ⟨hnew, hnodup⟩ := List.nodup_cons.1 hnodup
    rw [List.foldl_cons]
    split_ifs with hsrc
    · rw [ih hnodup hopen, BcastState.mk.injEq]
      refine ⟨rfl, rfl, ?_, rfl⟩
      funext c
      by_cases hc : c = bcast_cnx
      · simp [hc, hnew, hsrc]
      · simp [hc]
    · rw [sendCmd, if_pos (hopen bcast_cnx)]
      refine (ih (s := { s with queue := Function.update s.queue bcast_cnx _ }) hnodup
        hopen).trans ?_
      rw [BcastState.mk.injEq]
      refine ⟨rfl, rfl, ?_, rfl⟩
      funext c
      by_cases hc : c = bcast_cnx
      · subst hc
        simp [hnew, hsrc]
      · simp [hc]

variable (net p src_cnx cmd) in
/-- A command is sent once on each connection of the peer but the one it came on. -/
theorem forwardCmd_eq (hopen : ∀ c, s.isOpen c) : net.forwardCmd p cmd src_cnx s
    = { s with queue := fun c =>
        if net.owner c = p ∧ src_cnx ≠ some c then s.queue c ++ [cmd] else s.queue c } := by
  rw [forwardCmd, foldl_sendCmd (net.nodup_cnx_db p) hopen]
  simp only [net.mem_cnx_db]

end Forward

/-! ### The network floods -/

/-- The flooded network a state stands for. -/
structure Floods (s : BcastState P C) (f : Flood P C BcastMsg BcastNonce) : Prop where
  seen : ∀ p nonce, nonce ∈ s.seen_nonce_db p ↔ nonce ∈ f.seen p
  notified : ∀ p, s.notified p = (f.handled p).filter fun msg => msg.opstr ∈ net.handler_db p
  queue : ∀ c, s.queue c = (f.flight c).map BcastMsg.buildCmd
  isOpen : ∀ c, s.isOpen c

/-- The action an event is. -/
def act : BcastEv P C → Flood.Act P C BcastMsg
  | .originatePkt p msg => .originate p msg
  | .deliver c => .deliver c

section Simulation

variable {net} {s : BcastState P C} {f : Flood P C BcastMsg BcastNonce}

variable (net) in
theorem Floods.start : net.Floods start Flood.start :=
  ⟨fun _ _ => by simp [BcastNet.start, Flood.start], fun _ => rfl, fun _ => rfl, fun _ => rfl⟩

/-- What a peer sends is what it sends in the flooded network. -/
theorem Floods.send (h : net.Floods s f) (p : P) (src : Option C) (msg : BcastMsg) (c : C) :
    (if net.owner c = p ∧ src ≠ some c then s.queue c ++ [msg.buildCmd] else s.queue c)
      = (f.send net.toLinks p src msg c).map BcastMsg.buildCmd := by
  rw [Flood.send, h.queue c]
  split_ifs
  · rw [List.map_append]
    rfl
  · rfl

theorem Floods.originatePkt (h : net.Floods s f) (p : P) (msg : BcastMsg) :
    net.Floods (net.originatePkt s p msg)
      (f.originate net.toLinks BcastMsg.nonce p msg) := by
  rw [BcastNet.originatePkt, forwardCmd_eq net p none msg.buildCmd (s := updateNonce s p msg.nonce)
    h.isOpen]
  refine ⟨fun q nonce => ?_, h.notified, h.send p none msg, h.isOpen⟩
  show nonce ∈ Function.update (Function.update s.seen_nonce_db p _) p _ q
    ↔ nonce ∈ Function.update f.seen p _ q
  rw [Flood.mem_seen_update, ← h.seen]
  by_cases hq : q = p
  · subst hq
    rw [Function.update_self]
    dsimp only
    rw [Function.update_self, List.mem_cons]
    by_cases hnonce : nonce = msg.nonce
    · simp [hnonce]
    · simp [hnonce, List.mem_erase_of_ne hnonce]
  · rw [Function.update_of_ne hq, Function.update_of_ne hq]
    exact ⟨.inl, fun hmem => hmem.resolve_right fun hp => hq hp.1⟩

theorem Floods.parsePkt (h : net.Floods s f) (c : C) {msg : BcastMsg} {pkt : Datum}
    (hread : BcastMsg.readPkt net.hash pkt = .ok msg) :
    net.Floods (net.parsePkt s c pkt) (f.receive net.toLinks BcastMsg.nonce c msg) := by
  rw [BcastNet.parsePkt, hread]
  dsimp only
  by_cases hseen : msg.nonce ∈ s.seen_nonce_db (net.owner c)
  · rw [if_pos hseen, Flood.receive, if_pos ((h.seen _ _).1 hseen)]
    exact h
  · have hforward := forwardCmd_eq net (net.owner c) (some c) msg.buildCmd
      (s := insertNonce s (net.owner c) msg.nonce) h.isOpen
    rw [if_neg hseen, Flood.receive, if_neg fun hf => hseen ((h.seen _ _).2 hf), hforward]
    have hnonces (q : P) (nonce : BcastNonce) :
        nonce ∈ Function.update s.seen_nonce_db (net.owner c)
            (msg.nonce :: s.seen_nonce_db (net.owner c)) q
          ↔ nonce ∈ Function.update f.seen (net.owner c)
            (insert msg.nonce (f.seen (net.owner c))) q := by
      rw [Function.update_apply, Function.update_apply]
      split_ifs
      · rw [List.mem_cons, Finset.mem_insert, h.seen]
      · exact h.seen q nonce
    rw [notifyHandler]
    split_ifs with hhandler
    · refine ⟨hnonces, fun q => ?_, h.send _ _ msg, h.isOpen⟩
      show Function.update s.notified _ _ q = (Function.update f.handled _ _ q).filter _
      rw [Function.update_apply, Function.update_apply]
      split_ifs with hq
      · rw [hq]
        show s.notified _ ++ [msg] = _
        rw [h.notified, List.filter_append, List.filter_cons, if_pos (by simpa using hhandler)]
        rfl
      · exact h.notified q
    · refine ⟨hnonces, fun q => ?_, h.send _ _ msg, h.isOpen⟩
      show s.notified q = (Function.update f.handled _ _ q).filter _
      rw [Function.update_apply]
      split_ifs with hq
      · rw [hq, h.notified, List.filter_append, List.filter_cons, if_neg (by simpa using hhandler),
          List.filter_nil, List.append_nil]
      · exact h.notified q

/-- A command is as long as what is in it. -/
theorem length_buildCmd (msg : BcastMsg) :
    msg.opstr.length ≤ msg.buildCmd.length ∧ msg.payload.length ≤ msg.buildCmd.length := by
  have hstring (str : Datum) : str.length ≤ (Bencode.lengthString str).length := by
    rw [Bencode.lengthString, List.length_append, List.length_cons]
    omega
  have hopstr := hstring msg.opstr
  have hpayload := hstring msg.payload
  simp only [BcastMsg.buildCmd, Bencode.fromDvar, Bencode.fromMap, List.length_cons,
    List.length_append]
  omega

/-- A connection which is open now was open before. -/
theorem isOpen_of_step {ev : BcastEv P C} {c : C} (h : (net.step s ev).isOpen c) : s.isOpen c := by
  have hsend (s : BcastState P C) (c' : C) (cmd : Datum) :
      (sendCmd s c' cmd).isOpen = s.isOpen := by
    rw [sendCmd]
    split_ifs <;> rfl
  have hforward (p : P) (cmd : Datum) (src : Option C) (s : BcastState P C) :
      (net.forwardCmd p cmd src s).isOpen = s.isOpen := by
    rw [forwardCmd]
    generalize net.cnx_db p = cnxs
    induction cnxs generalizing s with
    | nil => rfl
    | cons c' cnxs ih =>
      rw [List.foldl_cons, ih]
      split_ifs
      · rfl
      · exact hsend s c' cmd
  cases ev with
  | originatePkt p msg =>
    rw [step, BcastNet.originatePkt, hforward] at h
    exact h
  | deliver c' =>
    rw [step, recvCmd] at h
    split_ifs at h with hopen
    · cases hqueue : s.queue c' with
      | nil =>
        rw [hqueue] at h
        exact h
      | cons cmd cmds =>
        rw [hqueue] at h
        dsimp only at h
        -- a step may close the connection it reads, by a command which is too long
        split_ifs at h with hlong
        · simp only [Bool.and_eq_true] at h
          exact h.1.1
        · split at h
          · rw [BcastNet.parsePkt] at h
            split at h
            · exact h
            · split_ifs at h
              · exact h
              · rw [notifyHandler] at h
                split_ifs at h <;> rw [hforward] at h <;> exact h
          · exact h
    · exact h

theorem Floods.recvCmd (h : net.Floods s f) (c : C)
    (hopen : ∀ c', (net.step s (.deliver c)).isOpen c') :
    net.Floods (net.recvCmd s c)
      (f.step net.toLinks BcastMsg.nonce (.deliver c)) := by
  have hopen : ∀ c', (net.recvCmd s c).isOpen c' := hopen
  rw [BcastNet.recvCmd, if_pos (h.isOpen c)] at hopen ⊢
  rw [Flood.step]
  have hqueue := h.queue c
  cases hflight : f.flight c with
  | nil =>
    rw [hflight, List.map_nil] at hqueue
    rw [hqueue]
    exact h
  | cons msg rest =>
    rw [hflight, List.map_cons] at hqueue
    rw [hqueue] at hopen ⊢
    dsimp only at hopen ⊢
    by_cases hlong : recvCmdMaxlen < 1 + msg.buildCmd.length
    · -- the connection would have been deleted
      rw [if_pos hlong] at hopen
      have := hopen c
      simp at this
    · obtain ⟨hopstr, hpayload⟩ := length_buildCmd msg
      have hread := BcastMsg.readPkt_buildCmd net.hash msg (by rw [recvCmdMaxlen] at hlong; omega)
        (by rw [recvCmdMaxlen] at hlong; omega)
      rw [if_neg hlong]
      apply Floods.parsePkt _ _ hread
      refine ⟨h.seen, h.notified, fun c' => ?_, h.isOpen⟩
      show Function.update s.queue c _ c' = (Function.update f.flight c rest c').map _
      rw [Function.update_apply, Function.update_apply]
      split_ifs
      · rfl
      · exact h.queue c'

theorem Floods.step (h : net.Floods s f) (ev : BcastEv P C)
    (hopen : ∀ c, (net.step s ev).isOpen c) :
    net.Floods (net.step s ev) (f.step net.toLinks BcastMsg.nonce (act ev)) := by
  cases ev with
  | originatePkt p msg => exact h.originatePkt p msg
  | deliver c => exact h.recvCmd c hopen

theorem isOpen_of_run {evs : List (BcastEv P C)} {c : C}
    (h : (run net.step s evs).isOpen c) : s.isOpen c := by
  induction evs generalizing s with
  | nil => exact h
  | cons ev evs ih => exact isOpen_of_step (ih h)

/-- **The network floods**, as long as its connections are open. -/
theorem Floods.run {evs : List (BcastEv P C)} (h : net.Floods s f)
    (hopen : ∀ c, (run net.step s evs).isOpen c) :
    net.Floods (run net.step s evs)
      (run (Flood.step net.toLinks BcastMsg.nonce) f (evs.map act)) := by
  induction evs generalizing s f with
  | nil => exact h
  | cons ev evs ih => exact ih (h.step ev fun c => isOpen_of_run (hopen c)) hopen

end Simulation

/-! ### Every peer, once -/

/-- The messages which are originated in a run, and by whom. -/
def originated (evs : List (BcastEv P C)) : List (P × BcastMsg) := Flood.births (evs.map act)

/-- How many receptions of a run find a command in flight. -/
def deliveries : BcastState P C → List (BcastEv P C) → ℕ
  | _, [] => 0
  | s, ev :: evs =>
    (match ev with
      | .deliver c => if s.queue c = [] then 0 else 1
      | .originatePkt _ _ => 0) + deliveries (net.step s ev) evs

/-- How often the message was passed to a handler of the peer. -/
def timesHandled (s : BcastState P C) (p : P) (msg : BcastMsg) : ℕ :=
  (s.notified p).countP fun other => other.nonce = msg.nonce

section Once

variable {net} {s : BcastState P C} {f : Flood P C BcastMsg BcastNonce} {evs : List (BcastEv P C)}

theorem mem_originated {p : P} {msg : BcastMsg} :
    (p, msg) ∈ originated evs ↔ BcastEv.originatePkt p msg ∈ evs := by
  induction evs with
  | nil => exact iff_of_false List.not_mem_nil List.not_mem_nil
  | cons ev evs ih =>
    rw [originated, List.map_cons, List.mem_cons]
    cases ev with
    | originatePkt q other =>
      rw [act, Flood.births_originate, List.mem_cons, ← originated, ih, Prod.mk.injEq,
        BcastEv.originatePkt.injEq]
    | deliver c =>
      rw [act, Flood.births_deliver, ← originated, ih]
      simp

theorem Floods.deliveries (h : net.Floods s f) (hopen : ∀ c, (Neoip.run net.step s evs).isOpen c) :
    net.deliveries s evs
      = Flood.deliveries net.toLinks BcastMsg.nonce f (evs.map act) := by
  induction evs generalizing s f with
  | nil => rfl
  | cons ev evs ih =>
    have hrest := ih (h.step ev fun c => isOpen_of_run (hopen c)) hopen
    cases ev with
    | originatePkt p msg =>
      rw [List.map_cons, BcastNet.deliveries, Flood.deliveries, hrest]
      rfl
    | deliver c =>
      have hempty : s.queue c = [] ↔ f.flight c = [] := by
        rw [h.queue, List.map_eq_nil_iff]
      rw [List.map_cons, BcastNet.deliveries, Flood.deliveries, hrest]
      by_cases hflight : f.flight c = []
      · simp [act, Flood.delivers, hempty, hflight]
      · simp [act, Flood.delivers, hempty, hflight]

theorem Floods.timesHandled_le (h : net.Floods s f) (p : P) (msg : BcastMsg) :
    timesHandled s p msg
      ≤ (f.handled p).countP fun other => other.nonce = msg.nonce := by
  rw [timesHandled, h.notified]
  exact List.filter_sublist.countP_le

/-- A peer with a handler for the operation passes on what was handed up to it, a peer without
one nothing. -/
theorem Floods.timesHandled (h : net.Floods s f) (hinv : Flood.Inv net.toLinks BcastMsg.nonce f)
    {o : P} {msg : BcastMsg} (hborn : (o, msg) ∈ f.born) (p : P) :
    timesHandled s p msg = if msg.opstr ∈ net.handler_db p
      then (f.handled p).countP fun other => other.nonce = msg.nonce else 0 := by
  have hsame {other : BcastMsg} (hother : other ∈ f.handled p) (hnonce : other.nonce = msg.nonce) :
      other = msg := by
    obtain ⟨o', -, ho'⟩ := hinv.handled p other hother
    exact (hinv.born_inj ho' hborn hnonce).2
  rw [BcastNet.timesHandled, h.notified, List.countP_filter]
  split_ifs with hhandler
  · apply List.countP_congr
    intro other hother
    simp only [Bool.and_eq_true, decide_eq_true_eq]
    refine ⟨fun hc => hc.1, fun hnonce => ⟨hnonce, ?_⟩⟩
    rw [hsame hother hnonce]
    exact hhandler
  · apply List.countP_eq_zero.2
    intro other hother hc
    simp only [Bool.and_eq_true, decide_eq_true_eq] at hc
    rw [hsame hother hc.1] at hc
    exact hhandler hc.2

end Once

/-- **Broadcast**: whatever network runs the extension, and in whatever order messages with
distinct nonces are originated and delivered on connections which are reliable,
no peer passes a message to its handler twice, and its originator never does;
what is in flight, and what was passed to a handler, is what was originated; when no copy of a
message is in flight, every other peer which can be reached from its originator has passed it
to its handler for the operation, if it has one, exactly once;
and no more copies are delivered than there are ends of connections for each message. -/
theorem floods_once [Fintype C] (evs : List (BcastEv P C))
    (hnonces : ((originated evs).map fun b => b.2.nonce).Nodup)
    (hopen : ∀ c, (run net.step start evs).isOpen c) :
    let s := run net.step start evs
    (∀ o msg, BcastEv.originatePkt o msg ∈ evs →
      (∀ p, timesHandled s p msg ≤ 1) ∧ timesHandled s o msg = 0
      ∧ ((∀ c, msg.buildCmd ∉ s.queue c) →
          ∀ p, Relation.ReflTransGen net.Adj o p → p ≠ o →
            timesHandled s p msg = if msg.opstr ∈ net.handler_db p then 1 else 0))
    ∧ (∀ c, ∀ cmd ∈ s.queue c, ∃ o msg, BcastEv.originatePkt o msg ∈ evs ∧ cmd = msg.buildCmd)
    ∧ (∀ p, ∀ msg ∈ s.notified p, ∃ o, BcastEv.originatePkt o msg ∈ evs)
    ∧ net.deliveries start evs ≤ Fintype.card C * (originated evs).length := by
  intro s
  have hfloods := (Floods.start net).run hopen
  have hborn := Flood.born_run net.toLinks BcastMsg.nonce Flood.start (evs.map act)
  have hdistinct : Flood.Distinct BcastMsg.nonce
      (Flood.start : Flood P C BcastMsg BcastNonce) (evs.map act) := hnonces
  have hinv := (Flood.Inv.start net.toLinks BcastMsg.nonce).run hdistinct
  -- the run of the peers simulates the abstract flood `f`
  generalize run (Flood.step net.toLinks BcastMsg.nonce) Flood.start (evs.map act) = f
    at hfloods hborn hinv
  have hmem (o : P) (msg : BcastMsg) : (o, msg) ∈ f.born ↔ BcastEv.originatePkt o msg ∈ evs := by
    rw [hborn, ← mem_originated]
    rfl
  refine ⟨fun o msg horiginated => ⟨fun p => ?_, ?_, ?_⟩, fun c cmd hcmd => ?_,
    fun p msg hmsg => ?_, ?_⟩
  · exact (hfloods.timesHandled_le p msg).trans (hinv.countP_handled_le p msg)
  · have hnone : (f.handled o).countP (fun other => other.nonce = msg.nonce) = 0 :=
      List.countP_eq_zero.2 fun other hother => by
        simpa using hinv.not_mem_handled ((hmem o msg).2 horiginated) hother
    have hle := hfloods.timesHandled_le o msg
    rw [hnone] at hle
    exact Nat.le_zero.1 hle
  · intro hquiet p hreach hne
    have hquiet' (c : C) : msg ∉ f.flight c := fun hflight => hquiet c (by
      rw [hfloods.queue]
      exact List.mem_map_of_mem hflight)
    have hborn' := (hmem o msg).2 horiginated
    rw [hfloods.timesHandled hinv hborn', hinv.countP_handled hborn' hquiet' hreach hne]
  · rw [hfloods.queue] at hcmd
    obtain ⟨msg, hflight, rfl⟩ := List.mem_map.1 hcmd
    obtain ⟨⟨o, ho⟩, -⟩ := hinv.flight c msg hflight
    exact ⟨o, msg, (hmem o msg).1 ho, rfl⟩
  · rw [hfloods.notified] at hmsg
    obtain ⟨o, -, ho⟩ := hinv.handled p msg (List.mem_filter.1 hmsg).1
    exact ⟨o, (hmem o msg).1 ho⟩
  -- each flooding crosses each connection once at most
  · have hle := Flood.deliveries_le (Flood.Inv.start net.toLinks BcastMsg.nonce) hdistinct
    have hzero : Flood.remaining net.toLinks BcastMsg.nonce
        (Flood.start : Flood P C BcastMsg BcastNonce) = 0 := by
      simp [Flood.remaining, Flood.start]
    rw [(Floods.start net).deliveries hopen, originated]
    omega

/-- Three peers, each connected to the two others.  The end `i` belongs to the peer `i / 2`. -/
def triangle : BcastNet (Fin 3) (Fin 6) where
  owner := ![0, 0, 1, 1, 2, 2]
  other := ![2, 4, 0, 5, 1, 3]
  other_other := by decide
  cnx_db := ![[0, 1], [2, 3], [4, 5]]
  mem_cnx_db := by decide
  nodup_cnx_db := by decide
  handler_db := fun _ => [[111]]
  hash := fun _ => 0

/-- A message which crosses itself between the two peers it was sent to. -/
def crossing : List (BcastEv (Fin 3) (Fin 6)) :=
  [.originatePkt 0 ⟨7, [111], [1, 2]⟩, .deliver 0, .deliver 1, .deliver 3, .deliver 5]

/-- The two others have passed it to their handlers once each, and its originator has not. -/
theorem floods_once_triangle :
    let s := run triangle.step start crossing
    (originated crossing).map (fun b => b.2.nonce) = [7]
    ∧ (∀ c, s.isOpen c)
    ∧ timesHandled s 0 ⟨7, [111], [1, 2]⟩ = 0
    ∧ (∀ p, p ≠ 0 → timesHandled s p ⟨7, [111], [1, 2]⟩ = 1)
    ∧ triangle.deliveries start crossing ≤ 6 * 1 := by
  have hopen : ∀ c, (run triangle.step start crossing).isOpen c := by decide +kernel
  have hquiet : ∀ c, (⟨7, [111], [1, 2]⟩ : BcastMsg).buildCmd ∉
      (run triangle.step start crossing).queue c := by decide +kernel
  have hadj : ∀ p : Fin 3, p ≠ 0 →
      ∃ c, triangle.owner c = 0 ∧ triangle.owner (triangle.other c) = p := by decide
  obtain ⟨hmsg, -, -, hle⟩ := floods_once triangle crossing (by decide) hopen
  obtain ⟨-, horiginator, hothers⟩ := hmsg 0 ⟨7, [111], [1, 2]⟩ (List.mem_cons_self ..)
  exact ⟨rfl, hopen, horiginator,
    fun p hp => hothers hquiet p (Relation.ReflTransGen.single (hadj p hp)) hp, hle⟩

end BcastNet

end Neoip
