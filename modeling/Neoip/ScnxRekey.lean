/-
Neoip/ScnxRekey.lean

Two `scnx_full_t` which rekey, over all runs.

The network is free: any packet may come at any time, as often as it likes or
never, so that packets are lost, duplicated and reordered, and others are made
up.  What is assumed of a run (`Ideal`) is that a receive context authenticates
a packet only if the other side has enciphered it under the key of the context,
that no nonce is drawn twice, and what `scnx_full_t` asks of its caller, that
the type of a data packet is not one of its own.

A side is at most one derivation ahead of the other one, and only while the
other one still waits for the reply (`Ahead`); it has then kept the context of
the key before.  The requests under one key have one nonce, so a request which
is delayed past its rekeying, and comes to the alternate context, is known from
its nonce.

Main result: the key which a side enciphers with is always the one of a receive
context of the other side (`rekey_agreement`).
-/
import Neoip.ScnxReplay
import Neoip.ScnxSeqnb

namespace Neoip

/-! ### Two connections -/

/-- The two sides of a connection. -/
structure ScnxLink where
  peer : Bool → ScnxFull

namespace ScnxLink

/-- Side `true` is the initiator. -/
def start (reliable_outter_cnx : Bool) (estapkt_in estapkt_out : Bool → Datum) : ScnxLink where
  peer side := ScnxFull.start side reliable_outter_cnx (estapkt_in side) (estapkt_out side)

/-- A side handles an event. -/
def step (C : Crypto) (l : ScnxLink) (e : Bool × ScnxEvent) : ScnxLink where
  peer := Function.update l.peer e.1 ((l.peer e.1).step C e.2)

end ScnxLink

/-- The type of a data packet is not one of those which `scnx_full_t` takes for itself. -/
def ScnxPlain.Typed : ScnxPlain → Prop
  | data pkt => pkt.head? ≠ some REKEY_REQUEST ∧ pkt.head? ≠ some REKEY_REPLY
  | _ => True

instance : (plain : ScnxPlain) → Decidable plain.Typed
  | .data _ => inferInstanceAs (Decidable (_ ∧ _))
  | .rekeyRequest _ => inferInstanceAs (Decidable True)
  | .rekeyReply _ => inferInstanceAs (Decidable True)

/-- If the context authenticates the packet, `q` has enciphered it under the key of the context. -/
def ScnxRecv.Authentic (C : Crypto) (q : ScnxFull) (pkt : Datum) (r : ScnxRecv) : Prop :=
  r.Authenticates C pkt → ∃ e ∈ q.enciphered, e.key = r.base_key ∧ e.pkt C = pkt

instance (C : Crypto) (q : ScnxFull) (pkt : Datum) : DecidablePred (ScnxRecv.Authentic C q pkt) :=
  fun _ => inferInstanceAs (Decidable (_ → _))

/-- What is assumed of an event which side `p` handles, where `q` is the other side. -/
def ScnxEvent.Ideal (C : Crypto) (p q : ScnxFull) : ScnxEvent → Prop
  | .pktFromUpper nonce pkt =>
    (ScnxPlain.data pkt).Typed ∧ (p.pktFromUpper C nonce pkt).2.nonces.Nodup
  | .pktFromLower pkt => p.full_recv.Authentic C q pkt ∧ ∀ r ∈ p.full_arcv, r.Authentic C q pkt
  | .rxmitTimeout => True
  | .zerotimer => True

instance (C : Crypto) (p q : ScnxFull) : (e : ScnxEvent) → Decidable (e.Ideal C p q)
  | .pktFromUpper _ _ => inferInstanceAs (Decidable (_ ∧ _))
  | .pktFromLower pkt => inferInstanceAs (Decidable
      (p.full_recv.Authentic C q pkt ∧ ∀ r ∈ p.full_arcv, r.Authentic C q pkt))
  | .rxmitTimeout => inferInstanceAs (Decidable True)
  | .zerotimer => inferInstanceAs (Decidable True)

def ScnxLink.Ideal (C : Crypto) (l : ScnxLink) (e : Bool × ScnxEvent) : Prop :=
  e.2.Ideal C (l.peer e.1) (l.peer !e.1)

instance (C : Crypto) (l : ScnxLink) (e : Bool × ScnxEvent) : Decidable (l.Ideal C e) :=
  inferInstanceAs (Decidable (e.2.Ideal C (l.peer e.1) (l.peer !e.1)))

namespace ScnxFull

/-- The key which `p` enciphers with is the one of a receive context of `q`. -/
def Agrees (p q : ScnxFull) : Prop :=
  p.full_xmit.base_key = q.full_recv.base_key ∨ ∃ r ∈ q.full_arcv, p.full_xmit.base_key = r.base_key

/-! ### Requests and replies -/

/-- A request with the nonce has been enciphered under the key. -/
def Requested (p : ScnxFull) (key : Skey) (nonce : Nonceid) : Prop :=
  ∃ e ∈ p.enciphered, e.key = key ∧ e.plain = .rekeyRequest nonce

def Replied (q : ScnxFull) (nonce : Nonceid) : Prop :=
  ∃ e ∈ q.enciphered, e.plain = .rekeyReply nonce

variable {C : Crypto} {p p' q q' : ScnxFull} {plain : ScnxPlain} {key : Skey} {nonce : Nonceid}

theorem requested_secure : (p.secure C plain).2.Requested key nonce ↔ p.Requested key nonce ∨
    (p.full_xmit.base_key = key ∧ plain = .rekeyRequest nonce) := by
  simp only [Requested, secure, List.mem_append, List.mem_singleton, or_and_right, exists_or,
    exists_eq_left]

theorem replied_secure : (p.secure C plain).2.Replied nonce ↔ p.Replied nonce ∨
    plain = .rekeyReply nonce := by
  simp only [Replied, secure, List.mem_append, List.mem_singleton, or_and_right, exists_or,
    exists_eq_left]

/-- What a side has drawn and requested. -/
structure Requesting (p : ScnxFull) : Prop where
  timeout : p.rxmit_timeout = true → p.isInprogress = true
  current : ∀ nonce, p.Requested p.xmit_key nonce → p.isInprogress = true ∧ p.local_nonce = nonce
  /-- The requests under one key have one nonce. -/
  unique : ∀ key nonce nonce', p.Requested key nonce → p.Requested key nonce' → nonce = nonce'
  fresh : p.isInprogress = true → ∀ key, p.Requested key p.local_nonce → key = p.xmit_key
  held : ∀ key nonce, p.Requested key nonce → nonce ∈ p.nonces
  held_local : p.local_nonce ∈ p.nonces
  held_null : Nonceid.null ∈ p.nonces
  typed : ∀ e ∈ p.enciphered, e.plain.Typed

/-- The receive key of `q` is one derivation ahead of the xmit key of `p`, which waits for the
reply, and `q` has kept the context of the key before. -/
structure Ahead (p q : ScnxFull) : Prop where
  key : q.recv_key = p.xmit_key.rkey
  arcv : q.full_arcv.map (·.base_key) = some p.xmit_key
  inprogress : p.isInprogress = true
  nonce : p.local_nonce = q.last_remote_nonce

/-- `p` sends, `q` receives. -/
structure Paired (p q : ScnxFull) : Prop where
  key : q.recv_key = p.xmit_key ∨ Ahead p q
  /-- The requests of the rekeying which made the receive key have the last nonce. -/
  last : ∀ key nonce, p.Requested key nonce → key.rkey = q.recv_key → nonce = q.last_remote_nonce
  /-- A reply with the nonce which `p` waits for shows that `q` has derived its key. -/
  replied : p.isInprogress = true → q.Replied p.local_nonce → q.recv_key = p.xmit_key.rkey
  waiting : p.isInprogress = true → q.last_remote_nonce = p.local_nonce →
    q.recv_key = p.xmit_key.rkey
  held_reply : ∀ nonce, q.Replied nonce → nonce ∈ p.nonces
  held_last : q.last_remote_nonce ∈ p.nonces

/-! ### The requests of a side -/

theorem isNull_iff : nonce.isNull = true ↔ nonce = Nonceid.null := decide_eq_true_iff

theorem isInprogress_iff : p.isInprogress = true ↔ p.local_nonce ≠ Nonceid.null := by
  rw [isInprogress, Bool.not_eq_true', Bool.eq_false_iff, Ne, isNull_iff]

theorem Requesting.start (is_itor_f reliable_outter_cnx : Bool) (estapkt_in estapkt_out : Datum) :
    Requesting (start is_itor_f reliable_outter_cnx estapkt_in estapkt_out) where
  timeout := by
    intro h
    cases h
  current := by
    rintro nonce ⟨e, he, -⟩
    cases he
  unique := by
    rintro key nonce nonce' ⟨e, he, -⟩
    cases he
  fresh := by
    rintro - key ⟨e, he, -⟩
    cases he
  held := by
    rintro key nonce ⟨e, he, -⟩
    cases he
  held_local := List.mem_singleton.2 rfl
  held_null := List.mem_singleton.2 rfl
  typed := by
    intro e he
    cases he

/-- The receive side and the queue do not matter. -/
theorem Requesting.congr (h : Requesting p) (hkey : p'.xmit_key = p.xmit_key)
    (hlocal : p'.local_nonce = p.local_nonce) (hnonces : p'.nonces = p.nonces)
    (hlog : p'.enciphered = p.enciphered)
    (htimeout : p'.rxmit_timeout = true → p.rxmit_timeout = true) : Requesting p' := by
  have hin : p'.isInprogress = p.isInprogress := by
    rw [isInprogress, isInprogress, hlocal]
  have hreq : p'.Requested = p.Requested := by
    funext key nonce
    rw [Requested, Requested, hlog]
  obtain ⟨h1, h2, h3, h4, h5, h6, h7, h8⟩ := h
  constructor
  · intro ht
    rw [hin]
    exact h1 (htimeout ht)
  · rwa [hreq, hkey, hin, hlocal]
  · rwa [hreq]
  · rwa [hreq, hkey, hin, hlocal]
  · rwa [hreq, hnonces]
  · rwa [hlocal, hnonces]
  · rwa [hnonces]
  · rwa [hlog]

/-- A request is enciphered with the nonce which is waited for. -/
theorem Requesting.secure (h : Requesting p) (hx : p.full_xmit.base_key = p.xmit_key)
    (htyped : plain.Typed)
    (hnonce : ∀ nonce, plain = .rekeyRequest nonce →
      p.isInprogress = true ∧ p.local_nonce = nonce) :
    Requesting (p.secure C plain).2 where
  timeout := h.timeout
  current := by
    intro nonce hreq
    rcases requested_secure.1 hreq with hold | ⟨-, hnew⟩
    · exact h.current nonce hold
    · exact hnonce nonce hnew
  unique := by
    -- under the xmit key, both are the nonce which is waited for
    have hcur : ∀ key nonce, p.full_xmit.base_key = key ∧ plain = .rekeyRequest nonce →
        ∀ nonce', p.Requested key nonce' → nonce = nonce' := by
      rintro key nonce ⟨rfl, hplain⟩ nonce' hold
      rw [hx] at hold
      exact (hnonce nonce hplain).2.symm.trans (h.current nonce' hold).2
    intro key nonce nonce' hreq hreq'
    rcases requested_secure.1 hreq with hold | hnew
    · rcases requested_secure.1 hreq' with hold' | hnew'
      · exact h.unique key nonce nonce' hold hold'
      · exact (hcur key nonce' hnew' nonce hold).symm
    · rcases requested_secure.1 hreq' with hold' | hnew'
      · exact hcur key nonce hnew nonce' hold'
      · exact (hnonce nonce hnew.2).2.symm.trans (hnonce nonce' hnew'.2).2
  fresh := by
    intro hin key hreq
    rcases requested_secure.1 hreq with hold | ⟨hkey, -⟩
    · exact h.fresh hin key hold
    · exact hkey.symm.trans hx
  held := by
    intro key nonce hreq
    rcases requested_secure.1 hreq with hold | ⟨-, hnew⟩
    · exact h.held key nonce hold
    · rw [← (hnonce nonce hnew).2]
      exact h.held_local
  held_local := h.held_local
  held_null := h.held_null
  typed := by
    intro e he
    rcases List.mem_append.1 he with he | he
    · exact h.typed e he
    · rw [List.mem_singleton.1 he]
      exact htyped

/-- A nonce is drawn which has not been held yet. -/
theorem Requesting.initiate (h : Requesting p) (hin : p.isInprogress = false)
    (hnew : nonce ∉ p.nonces) : Requesting (p.initiate nonce) where
  timeout := by
    intro _
    rw [isInprogress_iff]
    intro hnull
    have hnull : nonce = Nonceid.null := hnull
    rw [hnull] at hnew
    exact hnew h.held_null
  current := by
    intro nonce' hreq
    rw [(h.current nonce' hreq).1] at hin
    cases hin
  unique := h.unique
  fresh := by
    intro _ key hreq
    exact absurd (h.held key nonce hreq) hnew
  held := fun key nonce' hreq => List.mem_append_left _ (h.held key nonce' hreq)
  held_local := List.mem_append_right _ (List.mem_singleton.2 rfl)
  held_null := List.mem_append_left _ h.held_null
  typed := h.typed

/-- Under the key which is derived nothing has been requested. -/
theorem Requesting.deriveXmit (h : Requesting p)
    (hdepth : ∀ e ∈ p.enciphered, e.key.depth ≤ p.xmit_key.depth) : Requesting p.deriveXmit where
  timeout := by
    intro ht
    cases ht
  current := by
    rintro nonce ⟨e, he, hkey, -⟩
    have hle := hdepth e he
    rw [hkey] at hle
    exact absurd hle (Nat.not_succ_le_self _)
  unique := h.unique
  fresh := by
    intro hin
    cases hin
  held := h.held
  held_local := h.held_null
  held_null := h.held_null
  typed := h.typed

/-! ### The two sides of a direction -/

theorem Paired.start (is_itor_f reliable_outter_cnx : Bool)
    (estapkt_in estapkt_out estapkt_in' estapkt_out' : Datum) :
    Paired (start is_itor_f reliable_outter_cnx estapkt_in estapkt_out)
      (start (!is_itor_f) reliable_outter_cnx estapkt_in' estapkt_out') where
  key := by
    left
    exact congrArg directionKey (Bool.not_not is_itor_f)
  last := by
    rintro key nonce ⟨e, he, -⟩
    cases he
  replied := by
    rintro - ⟨e, he, -⟩
    cases he
  waiting := by
    intro h
    cases h
  held_reply := by
    rintro nonce ⟨e, he, -⟩
    cases he
  held_last := List.mem_singleton.2 rfl

/-- What a sender does with what it receives does not matter, nor the other packets which a
receiver enciphers. -/
theorem Paired.congr (h : Paired p q) (hkey : p'.xmit_key = p.xmit_key)
    (hlocal : p'.local_nonce = p.local_nonce) (hnonces : p'.nonces = p.nonces)
    (hreq : ∀ key nonce, p'.Requested key nonce → p.Requested key nonce)
    (hrecv : q'.recv_key = q.recv_key) (hlast : q'.last_remote_nonce = q.last_remote_nonce)
    (harcv : q'.full_arcv.map (·.base_key) = q.full_arcv.map (·.base_key))
    (hrep : ∀ nonce, q'.Replied nonce → q.Replied nonce) : Paired p' q' := by
  have hin : p'.isInprogress = p.isInprogress := by
    rw [isInprogress, isInprogress, hlocal]
  constructor
  · rw [hrecv, hkey]
    apply h.key.imp_right
    rintro ⟨h1, h2, h3, h4⟩
    constructor
    · rwa [hrecv, hkey]
    · rwa [harcv, hkey]
    · rwa [hin]
    · rwa [hlocal, hlast]
  · intro key nonce hr
    rw [hrecv, hlast]
    exact h.last key nonce (hreq key nonce hr)
  · rw [hin, hlocal, hrecv, hkey]
    exact fun hi hr => h.replied hi (hrep _ hr)
  · rw [hin, hlocal, hlast, hrecv, hkey]
    exact h.waiting
  · intro nonce hr
    rw [hnonces]
    exact h.held_reply nonce (hrep nonce hr)
  · rw [hlast, hnonces]
    exact h.held_last

/-- The sender enciphers. -/
theorem Paired.secure (h : Paired p q) (hx : p.full_xmit.base_key = p.xmit_key)
    (hnonce : ∀ nonce, plain = .rekeyRequest nonce →
      p.isInprogress = true ∧ p.local_nonce = nonce) :
    Paired (p.secure C plain).2 q where
  key := h.key.imp_right fun ⟨h1, h2, h3, h4⟩ => ⟨h1, h2, h3, h4⟩
  last := by
    intro key nonce hreq hrkey
    rcases requested_secure.1 hreq with hold | ⟨hkey, hplain⟩
    · exact h.last key nonce hold hrkey
    · rw [← hkey, hx] at hrkey
      rcases h.key with heq | hahead
      · rw [heq] at hrkey
        exact absurd hrkey (Skey.rkey_ne _)
      · rw [← (hnonce nonce hplain).2]
        exact hahead.nonce
  replied := h.replied
  waiting := h.waiting
  held_reply := h.held_reply
  held_last := h.held_last

theorem Paired.initiate (h : Paired p q) (hin : p.isInprogress = false)
    (hnew : nonce ∉ p.nonces) : Paired (p.initiate nonce) q where
  key := by
    left
    rcases h.key with heq | hahead
    · exact heq
    · rw [hahead.inprogress] at hin
      cases hin
  last := h.last
  replied := by
    intro _ hrep
    exact absurd (h.held_reply nonce hrep) hnew
  waiting := by
    intro _ hlast
    have hlast : q.last_remote_nonce = nonce := hlast
    rw [← hlast] at hnew
    exact absurd h.held_last hnew
  held_reply := fun nonce' hrep => List.mem_append_left _ (h.held_reply nonce' hrep)
  held_last := List.mem_append_left _ h.held_last

/-- The reply which is waited for has come: the receiver has derived its key before. -/
theorem Paired.deriveXmit (h : Paired p q) (hin : p.isInprogress = true)
    (hrep : q.Replied p.local_nonce) : Paired p.deriveXmit q where
  key := .inl (h.replied hin hrep)
  last := h.last
  replied := by
    intro hin'
    cases hin'
  waiting := by
    intro hin'
    cases hin'
  held_reply := h.held_reply
  held_last := h.held_last

/-- A packet under the main key shows that the receiver is not ahead. -/
theorem Paired.eq_of_enciphered (h : Paired p q)
    (hdepth : ∀ e ∈ p.enciphered, e.key.depth ≤ p.xmit_key.depth) {e : Enciphered}
    (he : e ∈ p.enciphered) (hkey : e.key = q.recv_key) : q.recv_key = p.xmit_key := by
  rcases h.key with heq | hahead
  · exact heq
  · have hle := hdepth e he
    rw [hkey, hahead.key] at hle
    exact absurd hle (Nat.not_succ_le_self _)

theorem Paired.acceptRecv (h : Paired p q) (hkey : q.recv_key = p.xmit_key) (seqnb : BitVec 32) :
    Paired p (q.acceptRecv seqnb) where
  key := .inl hkey
  last := h.last
  replied := h.replied
  waiting := h.waiting
  held_reply := h.held_reply
  held_last := h.held_last

theorem Paired.acceptArcv {r : ScnxRecv} (h : Paired p q) (hr : q.full_arcv = some r)
    (seqnb : BitVec 32) : Paired p (q.acceptArcv r seqnb) := by
  refine h.congr rfl rfl rfl (fun _ _ h => h) rfl rfl ?_ fun _ h => h
  rw [hr]
  rfl

/-- The state after a request has been dealt with. -/
def answer (C : Crypto) (nonce : Nonceid) (q : ScnxFull) : ScnxFull :=
  if q.last_remote_nonce = nonce then q.queueReply C nonce
  else (q.queueReply C nonce).deriveRecv nonce

theorem replied_queueReply {nonce' : Nonceid} :
    (q.queueReply C nonce).Replied nonce' ↔ q.Replied nonce' ∨ nonce = nonce' := by
  have h : (q.secure C (.rekeyReply nonce)).2.Replied nonce' ↔
      q.Replied nonce' ∨ ScnxPlain.rekeyReply nonce = .rekeyReply nonce' := replied_secure
  rw [ScnxPlain.rekeyReply.injEq] at h
  exact h

/-- A request which has been dealt with before is only replied to. -/
theorem Paired.queueReply (h : Paired p q) (hheld : nonce ∈ p.nonces)
    (hlast : q.last_remote_nonce = nonce) : Paired p (q.queueReply C nonce) where
  key := h.key.imp_right fun ⟨h1, h2, h3, h4⟩ => ⟨h1, h2, h3, h4⟩
  last := h.last
  replied := by
    intro hin hrep
    rcases replied_queueReply.1 hrep with hold | hnew
    · exact h.replied hin hold
    · exact h.waiting hin (hlast.trans hnew)
  waiting := h.waiting
  held_reply := by
    intro nonce' hrep
    rcases replied_queueReply.1 hrep with hold | rfl
    · exact h.held_reply nonce' hold
    · exact hheld
  held_last := h.held_last

/-- A new request under the xmit key makes the receiver go ahead. -/
theorem Paired.deriveRecv (h : Paired p q) (hp : Requesting p)
    (hbase : q.full_recv.base_key = q.recv_key) (heq : q.recv_key = p.xmit_key)
    (hreq : p.Requested p.xmit_key nonce) :
    Paired p ((q.queueReply C nonce).deriveRecv nonce) := by
  obtain ⟨hin, hlocal⟩ := hp.current nonce hreq
  have hrkey : ((q.queueReply C nonce).deriveRecv nonce).recv_key = p.xmit_key.rkey :=
    congrArg Skey.rkey heq
  constructor
  · right
    exact ⟨hrkey, congrArg some (hbase.trans heq), hin, hlocal⟩
  · intro key nonce' hreq' hkey
    rw [hrkey] at hkey
    rw [Skey.rkey_inj hkey] at hreq'
    exact (hp.current nonce' hreq').2.symm.trans hlocal
  · intro _ _
    exact hrkey
  · intro _ _
    exact hrkey
  · intro nonce' hrep
    have hrep : (q.queueReply C nonce).Replied nonce' := hrep
    rcases replied_queueReply.1 hrep with hold | rfl
    · exact h.held_reply nonce' hold
    · exact hp.held _ _ hreq
  · exact hp.held _ _ hreq

/-- **The answer to a request**: a request under the main key is new, and makes the receiver go
ahead; one under the alternate key is an old one. -/
theorem Paired.answer (h : Paired p q) (hp : Requesting p)
    (hdepth : ∀ e ∈ p.enciphered, e.key.depth ≤ p.xmit_key.depth)
    (hbase : q.full_recv.base_key = q.recv_key) (hreq : p.Requested key nonce)
    (hkey : key = q.recv_key ∨ key.rkey = q.recv_key) : Paired p (q.answer C nonce) := by
  rw [ScnxFull.answer]
  rcases hkey with rfl | hkey
  · obtain ⟨e, he, hkey, -⟩ := id hreq
    have heq := h.eq_of_enciphered hdepth he hkey
    rw [heq] at hreq
    obtain ⟨hin, hlocal⟩ := hp.current nonce hreq
    have hne : q.last_remote_nonce ≠ nonce := by
      intro hlast
      have hrkey := h.waiting hin (hlast.trans hlocal.symm)
      rw [heq] at hrkey
      exact Skey.rkey_ne _ hrkey.symm
    rw [if_neg hne]
    exact h.deriveRecv hp hbase heq hreq
  · have hlast := h.last key nonce hreq hkey
    rw [if_pos hlast.symm]
    exact h.queueReply (hp.held key nonce hreq) hlast.symm

/-! ### Both directions -/

/-- What holds of two sides, in both directions. -/
structure Sync (p q : ScnxFull) : Prop where
  requesting : Requesting p
  requesting' : Requesting q
  paired : Paired p q
  paired' : Paired q p

theorem Sync.symm (h : Sync p q) : Sync q p :=
  ⟨h.requesting', h.requesting, h.paired', h.paired⟩

/-- The window of a context, the queue and the packets of the establishment do not matter. -/
theorem Sync.congr (h : Sync p q) (hxmit : p'.xmit_key = p.xmit_key)
    (hlocal : p'.local_nonce = p.local_nonce) (hnonces : p'.nonces = p.nonces)
    (hlog : p'.enciphered = p.enciphered)
    (htimeout : p'.rxmit_timeout = true → p.rxmit_timeout = true)
    (hrecv : p'.recv_key = p.recv_key) (hlast : p'.last_remote_nonce = p.last_remote_nonce)
    (harcv : p'.full_arcv = p.full_arcv) : Sync p' q where
  requesting := h.requesting.congr hxmit hlocal hnonces hlog htimeout
  requesting' := h.requesting'
  paired := by
    refine h.paired.congr hxmit hlocal hnonces (fun key nonce hr => ?_) rfl rfl rfl fun _ h => h
    rwa [Requested, hlog] at hr
  paired' := by
    refine h.paired'.congr rfl rfl rfl (fun _ _ h => h) hrecv hlast (by rw [harcv])
      fun nonce hr => ?_
    rwa [Replied, hlog] at hr

theorem Sync.secure (h : Sync p q) (hx : p.full_xmit.base_key = p.xmit_key) (htyped : plain.Typed)
    (hrequest : ∀ nonce, plain = .rekeyRequest nonce →
      p.isInprogress = true ∧ p.local_nonce = nonce)
    (hreply : ∀ nonce, plain ≠ .rekeyReply nonce) : Sync (p.secure C plain).2 q where
  requesting := h.requesting.secure hx htyped hrequest
  requesting' := h.requesting'
  paired := h.paired.secure hx hrequest
  paired' := by
    refine h.paired'.congr rfl rfl rfl (fun _ _ h => h) rfl rfl rfl fun nonce hr => ?_
    exact (replied_secure.1 hr).resolve_right (hreply nonce)

theorem Sync.initiate (h : Sync p q) (hin : p.isInprogress = false) (hnew : nonce ∉ p.nonces) :
    Sync (p.initiate nonce) q where
  requesting := h.requesting.initiate hin hnew
  requesting' := h.requesting'
  paired := h.paired.initiate hin hnew
  paired' := h.paired'.congr rfl rfl rfl (fun _ _ h => h) rfl rfl rfl fun _ h => h

theorem Sync.deriveXmit (h : Sync p q)
    (hdepth : ∀ e ∈ p.enciphered, e.key.depth ≤ p.xmit_key.depth) (hin : p.isInprogress = true)
    (hrep : q.Replied p.local_nonce) : Sync p.deriveXmit q where
  requesting := h.requesting.deriveXmit hdepth
  requesting' := h.requesting'
  paired := h.paired.deriveXmit hin hrep
  paired' := h.paired'.congr rfl rfl rfl (fun _ _ h => h) rfl rfl rfl fun _ h => h

theorem Sync.acceptRecv (h : Sync p q)
    (hdepth : ∀ e ∈ q.enciphered, e.key.depth ≤ q.xmit_key.depth) {e : Enciphered}
    (he : e ∈ q.enciphered) (hkey : e.key = p.recv_key) (seqnb : BitVec 32) :
    Sync (p.acceptRecv seqnb) q where
  requesting := h.requesting.congr rfl rfl rfl rfl id
  requesting' := h.requesting'
  paired := h.paired.congr rfl rfl rfl (fun _ _ h => h) rfl rfl rfl fun _ h => h
  paired' := h.paired'.acceptRecv (h.paired'.eq_of_enciphered hdepth he hkey) seqnb

theorem Sync.acceptArcv {r : ScnxRecv} (h : Sync p q) (hr : p.full_arcv = some r)
    (seqnb : BitVec 32) : Sync (p.acceptArcv r seqnb) q where
  requesting := h.requesting.congr rfl rfl rfl rfl id
  requesting' := h.requesting'
  paired := h.paired.congr rfl rfl rfl (fun _ _ h => h) rfl rfl rfl fun _ h => h
  paired' := h.paired'.acceptArcv hr seqnb

theorem Requesting.queueReply (h : Requesting p) (hx : p.full_xmit.base_key = p.xmit_key) :
    Requesting (p.queueReply C nonce) := by
  have hsecure : Requesting (p.secure C (.rekeyReply nonce)).2 := by
    have htyped : (ScnxPlain.rekeyReply nonce).Typed := trivial
    apply h.secure hx htyped
    intro nonce' hplain
    cases hplain
  exact hsecure.congr rfl rfl rfl rfl id

theorem Paired.queueReply_left (h : Paired p q) (hx : p.full_xmit.base_key = p.xmit_key) :
    Paired (p.queueReply C nonce) q := by
  have hsecure : Paired (p.secure C (.rekeyReply nonce)).2 q := by
    apply h.secure hx
    intro nonce' hplain
    cases hplain
  exact hsecure.congr rfl rfl rfl (fun _ _ h => h) rfl rfl rfl fun _ h => h

theorem Sync.answer (h : Sync p q) (hx : p.full_xmit.base_key = p.xmit_key)
    (hbase : p.full_recv.base_key = p.recv_key)
    (hdepth : ∀ e ∈ q.enciphered, e.key.depth ≤ q.xmit_key.depth) (hreq : q.Requested key nonce)
    (hkey : key = p.recv_key ∨ key.rkey = p.recv_key) : Sync (p.answer C nonce) q where
  requesting := by
    have hreply : Requesting (p.queueReply C nonce) := h.requesting.queueReply hx
    rw [ScnxFull.answer]
    split_ifs
    · exact hreply
    · exact hreply.congr rfl rfl rfl rfl id
  requesting' := h.requesting'
  paired := by
    have hreply : Paired (p.queueReply C nonce) q := h.paired.queueReply_left hx
    rw [ScnxFull.answer]
    split_ifs
    · exact hreply
    · exact hreply.congr rfl rfl rfl (fun _ _ h => h) rfl rfl rfl fun _ h => h
  paired' := h.paired'.answer h.requesting' hdepth hbase hreq hkey

/-! ### Steps -/

/-- A nonce cannot be longer than a nonce. -/
theorem eq_of_buffer_append {nonce nonce' : Nonceid} {rest : Datum}
    (h : nonce.buffer = nonce'.buffer ++ rest) : nonce = nonce' := by
  have hlen := congrArg List.length h
  rw [List.length_append, nonce.length_eq, nonce'.length_eq] at hlen
  have hrest : rest = [] := List.eq_nil_of_length_eq_zero (by omega)
  rw [hrest, List.append_nil] at h
  obtain ⟨buffer, hbuffer⟩ := nonce
  obtain ⟨buffer', hbuffer'⟩ := nonce'
  exact (Nonceid.mk.injEq ..).mpr h

/-- What looks like a request is one. -/
theorem eq_rekeyRequest {rest : Datum} (htyped : plain.Typed)
    (h : plain.toDatum = REKEY_REQUEST :: (nonce.buffer ++ rest)) : plain = .rekeyRequest nonce := by
  cases plain with
  | data pkt =>
    have hhead := congrArg List.head? h
    exact absurd hhead htyped.1
  | rekeyRequest nonce' => rw [eq_of_buffer_append (List.cons.inj h).2]
  | rekeyReply nonce' => exact absurd (List.cons.inj h).1 (by decide)

theorem eq_rekeyReply {rest : Datum} (htyped : plain.Typed)
    (h : plain.toDatum = REKEY_REPLY :: (nonce.buffer ++ rest)) : plain = .rekeyReply nonce := by
  cases plain with
  | data pkt =>
    have hhead := congrArg List.head? h
    exact absurd hhead htyped.2
  | rekeyRequest nonce' => exact absurd (List.cons.inj h).1 (by decide)
  | rekeyReply nonce' => rw [eq_of_buffer_append (List.cons.inj h).2]

theorem Sync.dispatch {e : Enciphered} (h : Sync p q) (hx : p.full_xmit.base_key = p.xmit_key)
    (hbase : p.full_recv.base_key = p.recv_key)
    (hdepth : ∀ e ∈ p.enciphered, e.key.depth ≤ p.xmit_key.depth)
    (hdepth' : ∀ e ∈ q.enciphered, e.key.depth ≤ q.xmit_key.depth) (he : e ∈ q.enciphered)
    (hkey : e.key = p.recv_key ∨ e.key.rkey = p.recv_key) :
    Sync (p.dispatch C e.plain.toDatum).2.2 q := by
  have htyped := h.requesting'.typed e he
  rcases p.dispatch_cases C e.plain.toDatum with
    heq | ⟨nonce, rest, hplain, heq⟩ | ⟨rest, hplain, hin, heq⟩
  · rw [heq]
    exact h
  · rw [heq]
    exact h.answer hx hbase hdepth' ⟨e, he, rfl, eq_rekeyRequest htyped hplain⟩ hkey
  · rw [heq]
    exact h.deriveXmit hdepth hin ⟨e, he, eq_rekeyReply htyped hplain⟩

theorem Sync.nullifyEstapkt (h : Sync p q) : Sync p.nullifyEstapkt q := by
  rw [ScnxFull.nullifyEstapkt]
  split_ifs
  · exact h.congr rfl rfl rfl rfl id rfl rfl rfl
  · exact h

/-- What a context accepts has been enciphered by the other side, under the context's key. -/
theorem exists_enciphered {r : ScnxRecv} {pkt ciphertxt : Datum} {seqnb : BitVec 32}
    (hauth : r.Authentic C q pkt) (hpkt : pkt = C.secured r.base_key seqnb ciphertxt) :
    ∃ e ∈ q.enciphered, e.key = r.base_key ∧
      C.decipher (ciphKey r.base_key) seqnb ciphertxt = e.plain.toDatum := by
  have hown : r.Authenticates C pkt := by
    rw [hpkt]
    exact ScnxRecv.authenticates_secured C r seqnb ciphertxt
  obtain ⟨e, he, hkey, hpkt'⟩ := hauth hown
  refine ⟨e, he, hkey, ?_⟩
  rw [Enciphered.pkt, hkey, hpkt] at hpkt'
  obtain ⟨rfl, rfl⟩ := ScnxRecv.secured_inj hpkt'
  exact C.decipher_encipher _ _ _

/-- A packet which is accepted has been enciphered by the other side, under the receive key or
under the one before it. -/
theorem Sync.recvSecured {pkt pkt' : Datum} (h : Sync p q) (hp : Replay p) (hq : Numbered q)
    (hrecv : p.full_recv.Authentic C q pkt) (harcv : ∀ r ∈ p.full_arcv, r.Authentic C q pkt)
    (hok : p.recvSecured C pkt = (.OK, pkt', p')) :
    Sync p' q ∧ ∃ e ∈ q.enciphered, pkt' = e.plain.toDatum ∧
      (e.key = p'.recv_key ∨ e.key.rkey = p'.recv_key) := by
  rcases p.recvSecured_cases C pkt with
    ⟨err, _, heq, herr⟩ | ⟨r, seqnb, ct, -, -, hpkt, ⟨rfl, heq⟩ | ⟨hr, -, heq⟩⟩
  · rw [hok] at heq
    exact absurd (congrArg Prod.fst heq).symm herr
  · obtain ⟨e, he, hkey, hplain⟩ := exists_enciphered hrecv hpkt
    rw [hok, hplain] at heq
    simp only [Prod.mk.injEq, true_and] at heq
    obtain ⟨rfl, rfl⟩ := heq
    have hkey : e.key = p.recv_key := hkey.trans hp.key
    exact ⟨h.acceptRecv hq.depth he hkey seqnb, e, he, rfl, .inl hkey⟩
  · obtain ⟨e, he, hkey, hplain⟩ := exists_enciphered (harcv r hr) hpkt
    rw [hok, hplain] at heq
    simp only [Prod.mk.injEq, true_and] at heq
    obtain ⟨rfl, rfl⟩ := heq
    have hkey : e.key.rkey = p.recv_key := (congrArg Skey.rkey hkey).trans (hp.arcv r hr).1
    exact ⟨h.acceptArcv hr seqnb, e, he, rfl, .inr hkey⟩

theorem recv_key_nullifyEstapkt (p : ScnxFull) : p.nullifyEstapkt.recv_key = p.recv_key := by
  rw [nullifyEstapkt]
  split_ifs <;> rfl

theorem Sync.pktFromLower {pkt : Datum} (h : Sync p q) (hp : Numbered p) (hp' : Replay p)
    (hq : Numbered q) (hrecv : p.full_recv.Authentic C q pkt)
    (harcv : ∀ r ∈ p.full_arcv, r.Authentic C q pkt) : Sync (p.pktFromLower C pkt).2.2 q := by
  rcases p.pktFromLower_cases C pkt with ⟨_, _, -, -, heq | heq⟩ | ⟨pkt', s, hok, heq⟩
  · rw [heq]
    exact h
  · rw [heq]
    exact h.congr rfl rfl rfl rfl id rfl rfl rfl
  · obtain ⟨hs, e, he, rfl, hkey⟩ := h.recvSecured hp' hq hrecv harcv hok
    have hnum := hp.recvSecured (C := C) pkt
    have hrep := hp'.recvSecured (C := C) pkt
    rw [hok] at hnum hrep
    have hnum := hnum.nullifyEstapkt
    have hrep := hrep.nullifyEstapkt
    rw [← recv_key_nullifyEstapkt] at hkey
    rw [heq]
    exact hs.nullifyEstapkt.dispatch hnum.key hrep.key hnum.depth hq.depth he hkey

theorem Sync.pktFromUpper {pkt : Datum} (h : Sync p q) (hp : Numbered p)
    (htyped : (ScnxPlain.data pkt).Typed)
    (hnodup : (p.pktFromUpper C nonce pkt).2.nonces.Nodup) :
    Sync (p.pktFromUpper C nonce pkt).2 q := by
  rw [ScnxFull.pktFromUpper] at hnodup ⊢
  split_ifs at hnodup ⊢ with hdrop hrekey
  · exact h
  · have hin : p.isInprogress = false := by simpa using hrekey.2
    have hnew : nonce ∉ p.nonces := by
      have hnodup : (p.nonces ++ [nonce]).Nodup := hnodup
      rw [List.nodup_append] at hnodup
      intro hmem
      exact hnodup.2.2 nonce hmem nonce (List.mem_singleton.2 rfl) rfl
    refine (h.initiate hin hnew).secure hp.key htyped ?_ ?_
    · intro nonce' hplain
      cases hplain
    · intro nonce' hplain
      cases hplain
  · refine h.secure hp.key htyped ?_ ?_
    · intro nonce' hplain
      cases hplain
    · intro nonce' hplain
      cases hplain

theorem Sync.timeoutExpire (h : Sync p q) (hp : Numbered p) (ht : p.rxmit_timeout = true) :
    Sync (p.timeoutExpire C).2 q := by
  have hsecure : Sync (p.secure C (.rekeyRequest p.local_nonce)).2 q := by
    have htyped : (ScnxPlain.rekeyRequest p.local_nonce).Typed := trivial
    refine h.secure hp.key htyped ?_ ?_
    · rintro nonce' ⟨⟩
      exact ⟨h.requesting.timeout ht, rfl⟩
    · intro nonce' hplain
      cases hplain
  exact hsecure.congr rfl rfl rfl rfl (fun _ => ht) rfl rfl rfl

theorem Sync.step {e : ScnxEvent} (h : Sync p q) (hp : Numbered p) (hp' : Replay p)
    (hq : Numbered q) (he : e.Ideal C p q) : Sync (p.step C e) q := by
  cases e with
  | pktFromUpper nonce pkt => exact h.pktFromUpper hp he.1 he.2
  | pktFromLower pkt => exact h.pktFromLower hp hp' hq he.1 he.2
  | rxmitTimeout =>
    rw [ScnxFull.step, handle]
    split_ifs with ht
    · exact h.timeoutExpire hp ht
    · exact h
  | zerotimer => exact h.congr rfl rfl rfl rfl id rfl rfl rfl

/-- The receiver has a context for the key of the sender. -/
theorem Paired.agrees (h : Paired p q) (hp : Numbered p) (hq : Replay q) : Agrees p q := by
  rcases h.key with heq | hahead
  · left
    rw [hp.key, hq.key, heq]
  · right
    obtain ⟨r, hr, hbase⟩ := Option.map_eq_some_iff.1 hahead.arcv
    exact ⟨r, hr, hp.key.trans hbase.symm⟩

end ScnxFull

/-! ### Runs -/

namespace ScnxLink

open ScnxFull

variable {C : Crypto}

/-- The invariant of the two sides. -/
structure Inv (l : ScnxLink) : Prop where
  numbered : ∀ side, Numbered (l.peer side)
  replay : ∀ side, Replay (l.peer side)
  sync : Sync (l.peer true) (l.peer false)

theorem Inv.sync_side {l : ScnxLink} (h : Inv l) (side : Bool) :
    Sync (l.peer side) (l.peer !side) := by
  cases side with
  | true => exact h.sync
  | false => exact h.sync.symm

theorem inv_start (reliable_outter_cnx : Bool) (estapkt_in estapkt_out : Bool → Datum) :
    Inv (start reliable_outter_cnx estapkt_in estapkt_out) where
  numbered := fun _ => Numbered.start _ _ _ _
  replay := fun _ => Replay.start _ _ _ _
  sync := ⟨Requesting.start _ _ _ _, Requesting.start _ _ _ _, Paired.start true _ _ _ _ _,
    Paired.start false _ _ _ _ _⟩

theorem peer_step (C : Crypto) (l : ScnxLink) (e : Bool × ScnxEvent) (side : Bool) :
    (l.step C e).peer side =
      if side = e.1 then (l.peer e.1).step C e.2 else l.peer side :=
  Function.update_apply ..

theorem Inv.step {l : ScnxLink} {e : Bool × ScnxEvent} (h : Inv l) (he : l.Ideal C e) :
    Inv (l.step C e) := by
  obtain ⟨side, e⟩ := e
  have hstep := (h.sync_side side).step (h.numbered side) (h.replay side) (h.numbered !side) he
  constructor
  · intro side'
    rw [peer_step]
    split_ifs
    · exact (h.numbered side).step e
    · exact h.numbered side'
  · intro side'
    rw [peer_step]
    split_ifs
    · exact (h.replay side).step e
    · exact h.replay side'
  · cases side with
    | true => exact hstep
    | false => exact hstep.symm

/-! ### A run with a rekeying -/

def sampleNonce : Nonceid := ⟨[1, 2, 3, 4, 5, 6, 7, 8], rfl⟩

/-- Two sides. -/
def link (itor resp : ScnxFull) : ScnxLink where
  peer side := if side then itor else resp

section sample

variable {C : Crypto} {itor resp : ScnxFull} {n : BitVec 32}

theorem step_link_true (e : ScnxEvent) :
    (link itor resp).step C (true, e) = link (itor.step C e) resp := by
  rw [step, link, link, mk.injEq]
  funext side
  cases side <;> rfl

theorem step_link_false (e : ScnxEvent) :
    (link itor resp).step C (false, e) = link itor (resp.step C e) := by
  rw [step, link, link, mk.injEq]
  funext side
  cases side <;> rfl

/-- The responder, to which nothing came yet. -/
def sampleResp : ScnxFull := ScnxFull.start false false [] []

/-- The initiator after `n` data packets. -/
def dataSent (n : BitVec 32) (enciphered : List Enciphered) : ScnxFull :=
  { ScnxFull.start true false [] [] with full_xmit := ⟨directionKey true, n⟩, enciphered }

/-- One more packet, for which no rekeying is initiated. -/
theorem step_dataSent (hn : n < SEQNB_ITOR_REKEY) (es : List Enciphered) :
    (ScnxEvent.pktFromUpper sampleNonce [0]).Ideal sampleCrypto (dataSent n es) sampleResp ∧
      (dataSent n es).step sampleCrypto (.pktFromUpper sampleNonce [0]) =
        dataSent (n + 1) (es ++ [⟨directionKey true, n, .data [0]⟩]) := by
  have hpkt : (dataSent n es).pktFromUpper sampleCrypto sampleNonce [0] =
      (dataSent n es).secure sampleCrypto (.data [0]) := by
    have hle : ¬SEQNB_ITOR_REKEY ≤ n := BitVec.not_le.2 hn
    have hle' : ¬SEQNB_SIG_RESERVED ≤ n :=
      BitVec.not_le.2 (BitVec.lt_trans hn (by decide))
    rw [pktFromUpper, if_neg fun h => hle' h.1, if_neg fun h => hle h.1]
  constructor
  · refine ⟨by decide, ?_⟩
    rw [hpkt]
    exact List.nodup_singleton _
  · rw [ScnxFull.step, handle]
    dsimp only
    rw [hpkt]
    rfl

/-- As many packets as are sent before a rekeying is initiated. -/
theorem run_dataSent {n : ℕ} (hn : n ≤ SEQNB_ITOR_REKEY.toNat) :
    let evs := List.replicate n (true, ScnxEvent.pktFromUpper sampleNonce [0])
    let l := link (dataSent 0 []) sampleResp
    Guarded (step sampleCrypto) (Ideal sampleCrypto) l evs ∧
      ∃ es, run (step sampleCrypto) l evs = link (dataSent (BitVec.ofNat 32 n) es) sampleResp := by
  induction n with
  | zero => exact ⟨trivial, [], rfl⟩
  | succ n ih =>
    obtain ⟨hguard, es, hrun⟩ := ih (by omega)
    have hlt : BitVec.ofNat 32 n < SEQNB_ITOR_REKEY := by
      have hbound := SEQNB_ITOR_REKEY.isLt
      rw [BitVec.lt_def, BitVec.toNat_ofNat, Nat.mod_eq_of_lt (by omega)]
      exact hn
    obtain ⟨hideal, hstep⟩ := step_dataSent hlt es
    rw [List.replicate_succ']
    refine ⟨guarded_append.2 ⟨hguard, ?_⟩,
      es ++ [⟨directionKey true, BitVec.ofNat 32 n, .data [0]⟩], ?_⟩
    · rw [hrun]
      exact ⟨hideal, trivial⟩
    · rw [run_append, hrun, run_cons, step_link_true, hstep, BitVec.ofNat_add]
      rfl

/-- What is enciphered for a rekeying, and the first packet under the next key. -/
def sampleRequest : Enciphered :=
  ⟨directionKey true, SEQNB_ITOR_REKEY + 1, .rekeyRequest sampleNonce⟩

def sampleReply : Enciphered := ⟨directionKey false, 0, .rekeyReply sampleNonce⟩

def sampleNext : Enciphered := ⟨(directionKey true).rkey, 0, .data [1]⟩

/-- The packet at which a rekeying is due. -/
theorem pktFromUpper_due (es : List Enciphered) :
    (dataSent SEQNB_ITOR_REKEY es).pktFromUpper sampleCrypto sampleNonce [0] =
      ((dataSent SEQNB_ITOR_REKEY es).initiate sampleNonce).secure sampleCrypto (.data [0]) := by
  have hlt : ¬SEQNB_SIG_RESERVED ≤ SEQNB_ITOR_REKEY := by decide
  have hle : SEQNB_ITOR_REKEY ≤ SEQNB_ITOR_REKEY := by decide
  rw [pktFromUpper, if_neg fun h => hlt h.1, if_pos ⟨hle, rfl⟩]

/-- The request has been sent. -/
def requested (es : List Enciphered) : ScnxFull :=
  ((((dataSent SEQNB_ITOR_REKEY es).initiate sampleNonce).secure sampleCrypto (.data [0])).2
    |>.timeoutExpire sampleCrypto).2

theorem step_requested (es : List Enciphered) :
    ((dataSent SEQNB_ITOR_REKEY es).step sampleCrypto (.pktFromUpper sampleNonce [0])).step
      sampleCrypto .rxmitTimeout = requested es := by
  rw [ScnxFull.step, ScnxFull.step, handle, handle]
  dsimp only
  rw [pktFromUpper_due]
  rfl

/-- The responder has got it and has sent the reply. -/
def replied : ScnxFull :=
  (sampleResp.step sampleCrypto (.pktFromLower (sampleRequest.pkt sampleCrypto))).step sampleCrypto
    .zerotimer

/-- The reply comes. -/
theorem step_requested_reply (es : List Enciphered) :
    (requested es).step sampleCrypto (.pktFromLower (sampleReply.pkt sampleCrypto)) =
      ((requested es).acceptRecv 0).deriveXmit := by
  have hrep : (ScnxRecv.ctor (directionKey false)).isReplayed 0 = false := by decide
  have hrecv : (requested es).recvSecured sampleCrypto (sampleReply.pkt sampleCrypto) =
      (.OK, _, (requested es).acceptRecv 0) :=
    recvSecured_main sampleCrypto (requested es) hrep (sampleCrypto.encipher
      (ciphKey (requested es).full_recv.base_key) 0 sampleReply.plain.toDatum)
  have hread : Nonceid.read sampleNonce.buffer = some (sampleNonce, []) := by decide
  have hne : REKEY_REPLY ≠ REKEY_REQUEST := by decide
  rw [Crypto.decipher_encipher] at hrecv
  rw [ScnxFull.step, handle]
  dsimp only
  rw [ScnxFull.pktFromLower, hrecv]
  show (dispatch sampleCrypto (REKEY_REPLY :: sampleNonce.buffer)
    ((requested es).acceptRecv 0)).2.2 = _
  rw [dispatch, if_neg hne, if_pos rfl, recvRekeyReply, List.tail_cons, hread]
  rfl

/-- The first packet under the next key is sent. -/
theorem step_requested_next (es : List Enciphered) :
    (((requested es).acceptRecv 0).deriveXmit).step sampleCrypto (.pktFromUpper Nonceid.null [1]) =
      ((((requested es).acceptRecv 0).deriveXmit).secure sampleCrypto (.data [1])).2 := by
  have hlt : ¬SEQNB_SIG_RESERVED ≤ 0 := by decide
  have hlt' : ¬SEQNB_ITOR_REKEY ≤ 0 := by decide
  rw [ScnxFull.step, handle]
  dsimp only
  rw [pktFromUpper, if_neg fun h => hlt h.1, if_neg fun h => hlt' h.1]

/-- It is received, once and twice. -/
def received : ScnxFull := replied.step sampleCrypto (.pktFromLower (sampleNext.pkt sampleCrypto))

def duplicated : ScnxFull := received.step sampleCrypto (.pktFromLower (sampleNext.pkt sampleCrypto))

/-- A request, its reply, a packet under the next key which is received twice, and one which nobody
has enciphered. -/
def rekeying : List (Bool × ScnxEvent) :=
  [(true, .pktFromUpper sampleNonce [0]), (true, .rxmitTimeout),
    (false, .pktFromLower (sampleRequest.pkt sampleCrypto)), (false, .zerotimer),
    (true, .pktFromLower (sampleReply.pkt sampleCrypto)), (true, .pktFromUpper Nonceid.null [1]),
    (false, .pktFromLower (sampleNext.pkt sampleCrypto)),
    (false, .pktFromLower (sampleNext.pkt sampleCrypto)), (false, .pktFromLower [0, 0, 0, 0, 0])]

theorem guarded_rekeying (es : List Enciphered) : Guarded (step sampleCrypto) (Ideal sampleCrypto)
    (link (dataSent SEQNB_ITOR_REKEY es) sampleResp) rekeying := by
  have hdrawn : [Nonceid.null, sampleNonce].Nodup := by decide
  have hreplied : sampleReply ∈ replied.enciphered := by decide +kernel
  have hkeys : sampleNext.key = replied.full_recv.base_key ∧
      sampleNext.key = received.full_recv.base_key := by decide +kernel
  have hkept : ∀ r ∈ replied.full_arcv,
      ¬r.Authenticates sampleCrypto (sampleNext.pkt sampleCrypto) := by decide +kernel
  have hdeleted : received.full_arcv = none ∧ duplicated.full_arcv = none := by decide +kernel
  have hmade : ¬duplicated.full_recv.Authenticates sampleCrypto [0, 0, 0, 0, 0] := by
    decide +kernel
  simp only [rekeying, guarded_cons, step_link_true, step_link_false, step_requested,
    step_requested_reply, step_requested_next]
  refine ⟨⟨by decide, ?_⟩, trivial, ⟨?_, fun r hr => by cases hr⟩, trivial,
    ⟨?_, fun r hr => by cases hr⟩, ⟨by decide, hdrawn⟩,
    ⟨?_, fun r hr hauth => absurd hauth (hkept r hr)⟩, ⟨?_, ?_⟩, ⟨fun h => absurd h hmade, ?_⟩,
    trivial⟩
  · show ((dataSent SEQNB_ITOR_REKEY es).pktFromUpper sampleCrypto sampleNonce [0]).2.nonces.Nodup
    rw [pktFromUpper_due]
    exact hdrawn
  · intro _
    exact ⟨sampleRequest, List.mem_append_right _ (List.mem_singleton_self _), rfl, rfl⟩
  · intro _
    exact ⟨sampleReply, hreplied, rfl, rfl⟩
  · intro _
    exact ⟨sampleNext, List.mem_append_right _ (List.mem_singleton_self _), hkeys.1, rfl⟩
  · intro _
    exact ⟨sampleNext, List.mem_append_right _ (List.mem_singleton_self _), hkeys.2, rfl⟩
  · intro r hr
    cases hdeleted.1.symm.trans hr
  · intro r hr
    cases hdeleted.2.symm.trans hr

theorem start_eq_link :
    start false (fun _ => []) (fun _ => []) = link (dataSent 0 []) sampleResp := by
  rw [start, link, mk.injEq]
  funext side
  cases side <;> rfl

end sample

/-! ### Agreement -/

/-- **Rekey agreement**: in every run, in both directions, the key which a side enciphers with is
the one of the main or of the alternate receive context of the other side. -/
theorem rekey_agreement (C : Crypto) (reliable_outter_cnx : Bool)
    (estapkt_in estapkt_out : Bool → Datum) (evs : List (Bool × ScnxEvent))
    (hideal : Guarded (step C) (Ideal C) (start reliable_outter_cnx estapkt_in estapkt_out) evs) :
    Always (step C) (fun l => ∀ side, Agrees (l.peer side) (l.peer !side))
      (start reliable_outter_cnx estapkt_in estapkt_out) evs := by
  have hinv : Always (step C) Inv (start reliable_outter_cnx estapkt_in estapkt_out) evs :=
    hideal.always (fun _ _ h he => h.step he) (inv_start _ _ _)
  refine hinv.mono fun l h side => ?_
  exact (h.sync_side side).paired.agrees (h.numbered side) (h.replay !side)

/-- A whole rekeying, after which both sides have the next key. -/
theorem rekey_agreement_sample :
    let l := start false (fun _ => []) fun _ => []
    let evs := List.replicate SEQNB_ITOR_REKEY.toNat (true, .pktFromUpper sampleNonce [0]) ++ rekeying
    Always (step sampleCrypto) (fun l => ∀ side, Agrees (l.peer side) (l.peer !side)) l evs ∧
      ((run (step sampleCrypto) l evs).peer true).full_xmit.base_key = (directionKey true).rkey ∧
      ((run (step sampleCrypto) l evs).peer false).full_recv.base_key = (directionKey true).rkey := by
  intro l evs
  obtain ⟨hguard, es, hrun⟩ := run_dataSent (n := SEQNB_ITOR_REKEY.toNat) le_rfl
  rw [← start_eq_link, BitVec.ofNat_toNat, BitVec.setWidth_eq] at hrun
  rw [← start_eq_link] at hguard
  refine ⟨rekey_agreement sampleCrypto false _ _ evs (guarded_append.2 ⟨hguard, ?_⟩), ?_⟩
  · rw [hrun]
    exact guarded_rekeying es
  · rw [show run (step sampleCrypto) l evs = _ from run_append .., hrun]
    simp only [rekeying, run_cons, run_nil, step_link_true, step_link_false, step_requested,
      step_requested_reply, step_requested_next]
    have hkey : (duplicated.step sampleCrypto
        (.pktFromLower [0, 0, 0, 0, 0])).full_recv.base_key = (directionKey true).rkey := by
      decide +kernel
    rw [duplicated, received, replied] at hkey
    simp only [link, if_true, Bool.false_eq_true, if_false]
    exact ⟨rfl, hkey⟩

end ScnxLink

end Neoip
