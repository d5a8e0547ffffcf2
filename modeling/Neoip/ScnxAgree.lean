/-
Neoip/ScnxAgree.lean

What an initiator and a responder agree on, whatever the network does.

A `ScnxPair` is the two parties, each with a process which may have ended on an
assertion.  A packet is handed up to one of them with no regard to what has been
sent, so that packets are lost, duplicated, reordered and made up in the runs.
What is asked of the cryptography is `Ideal`, a condition on one step:

* a packet which is verified with the master key of the initiator is one whose
  proof of possession has been made with it, by one of the two parties;
* the master key which the initiator computes is not one which has been used;
* a cookie is not the one of two paths under two secrets, and no secret is
  drawn twice.

Other initiators, with keys of their own, are free to talk to the responder.

Main result: the connections which the two parties have built for one nonce and
one cookie are alike, there is one for each cookie, a packet which the initiator
rejects is as if it had not been received, and both parties go on to answer,
exactly when no packet which is read up to its proof of possession is too short
for one (`establishes_iff`): there the process ends (`not_establishes`).
-/
import Neoip.ScnxEst

namespace Neoip

/-- The two parties, and whether their processes have ended on an assertion. -/
structure ScnxPair (Priv : Type) where
  itor : ScnxItor Priv
  resp : ScnxResp Priv
  itor_aborted : Bool
  resp_aborted : Bool

/-- Both processes are there. -/
structure ScnxPair.Up {Priv : Type} (s : ScnxPair Priv) : Prop where
  itor : s.itor_aborted = false
  resp : s.resp_aborted = false

/-- What happens to one of the parties; a packet comes with the callbacks it is handled with. -/
inductive EstEvent
  | itorPkt (pkt : Datum) (auxnego_payl : ShortDatum) (auxnego : ShortDatum → Option ScnxEstErr)
  | itorTimeout
  | respPkt (pkt cookie_pathid : Datum) (auxnego : ShortDatum → Except ScnxEstErr ShortDatum)
  | cookieRekey (secret : Datum)

namespace ScnxEst

variable {Cert Pub Priv : Type}

section

variable (E : ScnxEnv Cert Pub Priv) (profile_i profile_r : ScnxProfile Cert)

/-! ### The pair -/

/-- Both parties once they are started. -/
def start (reliable_outter_cnx : Bool) (nonce_i : Nonceid) (priv_i priv_r : Priv)
    (secret : Datum) : ScnxPair Priv where
  itor := itorStart reliable_outter_cnx nonce_i priv_i
  resp := respCtor secret priv_r
  itor_aborted := false
  resp_aborted := false

/-- What the initiator makes of a packet; a process which has ended makes nothing of it. -/
def itorAnswer (s : ScnxPair Priv) (pkt : Datum) (auxnego_payl : ShortDatum)
    (auxnego : ShortDatum → Option ScnxEstErr) : Option ScnxEnd × ScnxItor Priv :=
  if s.itor_aborted then (some .aborted, s.itor)
  else itorFromLower E profile_i pkt auxnego_payl auxnego s.itor

/-- What the responder makes of a packet. -/
def respAnswer (s : ScnxPair Priv) (pkt cookie_pathid : Datum)
    (auxnego : ShortDatum → Except ScnxEstErr ShortDatum) :
    Except ScnxEnd (Datum × ScnxResp Priv) :=
  if s.resp_aborted then .error .aborted
  else respFromLower E profile_r pkt cookie_pathid auxnego s.resp

/-- Handle one event. -/
def step (s : ScnxPair Priv) : EstEvent → ScnxPair Priv
  | .itorPkt pkt auxnego_payl auxnego =>
    let r := itorAnswer E profile_i s pkt auxnego_payl auxnego
    { s with itor := r.2, itor_aborted := r.1 = some .aborted }
  | .itorTimeout => if s.itor_aborted then s else { s with itor := itorTimeout s.itor }
  | .respPkt pkt cookie_pathid auxnego =>
    match respAnswer E profile_r s pkt cookie_pathid auxnego with
    | .ok (_, resp) => { s with resp }
    | .error stop => { s with resp_aborted := stop = .aborted }
  | .cookieRekey secret =>
    if s.resp_aborted then s
    else { s with resp := { s.resp with cookie := s.resp.cookie.rekey secret } }

/-- One of the parties has made this proof of possession. -/
def Made (s : ScnxPair Priv) (key data : Datum) : Prop :=
  (key, data) ∈ s.itor.pops ++ s.resp.pops

instance (s : ScnxPair Priv) (key data : Datum) : Decidable (Made s key data) :=
  inferInstanceAs (Decidable (_ ∈ _))

/-- What is asked of the cryptography. -/
def Ideal (s : ScnxPair Priv) : EstEvent → Prop
  | .itorPkt pkt auxnego_payl auxnego =>
    (s.itor.state = .ITOR_AUTH_SENT →
      ∀ a ∈ (parseRespAuth profile_i s.itor.nonce_i pkt).toOption,
        (E.hmac s.itor.master_key a.pop_cover_data).1 = a.remote_pop →
          Made s s.itor.master_key a.pop_cover_data)
    ∧ (s.itor.state = .CNX_REQ_SENT → ∀ k ∈ s.resp.cnxs,
        k.master_key ≠ (itorFromLower E profile_i pkt auxnego_payl auxnego s.itor).2.master_key)
  | .itorTimeout => True
  | .respPkt pkt cookie_pathid _ =>
    ∀ a ∈ (parseItorAuth E profile_r pkt cookie_pathid s.resp).toOption,
      (E.hmac a.master_key a.pop_cover_data).1 = a.remote_pop →
        (s.itor.state = .ITOR_AUTH_SENT → a.master_key = s.itor.master_key →
          Made s a.master_key a.pop_cover_data)
        ∧ s.resp.cookie.OneSecret E.hmac (cookie_pathid ++ a.remote_nonce_i.buffer)
            a.remote_cookie
  | .cookieRekey secret => secret ∉ s.resp.cookie.secrets

instance (s : ScnxPair Priv) : ∀ ev, Decidable (Ideal E profile_i profile_r s ev)
  | .itorPkt .. => inferInstanceAs (Decidable (_ ∧ _))
  | .itorTimeout => inferInstanceAs (Decidable True)
  | .respPkt .. => inferInstanceAs (Decidable (∀ a ∈ _, _))
  | .cookieRekey _ => inferInstanceAs (Decidable (_ ∉ _))

/-- A packet with which the handshake goes on. -/
inductive Valid (i : ScnxItor Priv) (auxnego : ShortDatum → Option ScnxEstErr) : Datum → Prop
  | reply (cookie : CookieId) (cert : Cert) (pub : Pub) (signature : ShortDatum) :
      i.state = .CNX_REQ_SENT → profile_i.scnx_auth_ftor cert = none →
      E.verify_data cert (E.cert.put cert ++ E.pub.put pub) signature.1 = true →
      Valid i auxnego (CNX_REPLY :: (i.nonce_i.buffer ++ (cookie.1
        ++ (E.cert.put cert ++ (E.pub.put pub ++ Codec.datum.put signature)))))
  | auth (auth : SkeyAuthType) (ciph : SkeyCiphType) (payl : ShortDatum) :
      i.state = .ITOR_AUTH_SENT →
      ItemArr.contain SkeyAuthType.eq auth profile_i.skey_auth_optlist = true →
      ItemArr.contain SkeyCiphType.eq ciph profile_i.skey_ciph_optlist = true →
      auxnego payl = none →
      Valid i auxnego (respAuthBody i.nonce_i auth ciph payl
        ++ (E.hmac i.master_key (respAuthBody i.nonce_i auth ciph payl)).1)

/-- The types of a connection are options of the party. -/
def Proposed (profile : ScnxProfile Cert) (c : EstCnx) : Prop :=
  ItemArr.contain SkeyAuthType.eq c.chosen_auth_type profile.skey_auth_optlist = true
    ∧ ItemArr.contain SkeyCiphType.eq c.chosen_ciph_type profile.skey_ciph_optlist = true

/-- Two connections have the same keys and the same types. -/
def SameCnx (c k : EstCnx) : Prop :=
  c.master_key = k.master_key ∧ c.chosen_auth_type = k.chosen_auth_type
    ∧ c.chosen_ciph_type = k.chosen_ciph_type

/-- What is asked of every state. -/
structure Safe (s : ScnxPair Priv) : Prop where
  agree : ∀ c ∈ s.itor.cnxs, ∀ k ∈ s.resp.cnxs, c.nonce_i = k.nonce_i →
    c.cookie_id = k.cookie_id → SameCnx c k ∧ Proposed profile_i c ∧ Proposed profile_r c
  once : (s.resp.cnxs.map EstCnx.cookie_id).Nodup
  /-- After a rejected packet all goes on as if it had not been received. -/
  rejected : ∀ pkt auxnego_payl auxnego err,
    (itorAnswer E profile_i s pkt auxnego_payl auxnego).1 = some (.returned err) →
      ∀ evs pkt' auxnego_payl' auxnego',
        let t := run (step E profile_i profile_r) s evs
        let t' := run (step E profile_i profile_r)
          (step E profile_i profile_r s (.itorPkt pkt auxnego_payl auxnego)) evs
        t'.itor.cnxs = t.itor.cnxs
          ∧ (itorAnswer E profile_i t' pkt' auxnego_payl' auxnego').1
              = (itorAnswer E profile_i t pkt' auxnego_payl' auxnego').1
  /-- A valid packet is accepted, and makes the handshake go on. -/
  completes : ∀ pkt auxnego_payl auxnego, Valid E profile_i s.itor auxnego pkt →
    let r := itorAnswer E profile_i s pkt auxnego_payl auxnego
    r.1 = none ∧ r.2.state = .ITOR_AUTH_SENT
      ∧ (s.itor.state = .ITOR_AUTH_SENT → r.2.cnxs.length = s.itor.cnxs.length + 1)
  /-- A CNX_REQUEST is answered. -/
  answers : ∀ nonce_i cookie_pathid auxnego, ∃ reply,
    respAnswer E profile_r s (buildCnxRequest nonce_i) cookie_pathid auxnego = .ok (reply, s.resp)

/-- A packet which is read up to its proof of possession has as many bytes left as the MAC. -/
def HasPop (s : ScnxPair Priv) : EstEvent → Prop
  | .itorPkt pkt _ _ => s.itor.state = .ITOR_AUTH_SENT → pkt.head? = some RESP_AUTH →
    ∀ a ∈ (parseRespAuthHead profile_i s.itor.nonce_i pkt).toOption, 20 ≤ a.rest.length
  | .respPkt pkt cookie_pathid _ => pkt.head? = some ITOR_AUTH →
    ∀ a ∈ (parseItorAuthHead E profile_r pkt cookie_pathid s.resp).toOption, 20 ≤ a.rest.length
  | .itorTimeout => True
  | .cookieRekey _ => True

end

variable {E : ScnxEnv Cert Pub Priv} {profile profile_i profile_r : ScnxProfile Cert}

/-! ### What is read -/

theorem bind_eq_ok {ε α β : Type} {x : Except ε α} {f : α → Except ε β} {b : β} :
    (x >>= f) = .ok b ↔ ∃ a, x = .ok a ∧ f a = .ok b := by
  cases x with
  | error err =>
    constructor
    · intro h
      nomatch h
    · rintro ⟨_, h, -⟩
      nomatch h
  | ok a =>
    constructor
    · intro h
      exact ⟨a, rfl, h⟩
    · rintro ⟨_, ⟨⟩, h⟩
      exact h

theorem read_eq_ok {α : Type} {c : Codec UInt8 α} {pkt : Datum} {r : α × Datum} :
    read c pkt = .ok r ↔ c.get pkt = some r := by
  rw [read]
  cases c.get pkt with
  | none => simp
  | some r' => rw [Except.ok.injEq, Option.some.injEq]

theorem require_eq_ok {ok : Bool} {err : ScnxEstErr} {u : Unit} :
    require ok err = .ok u ↔ ok = true := by
  cases ok <;> simp [require]

theorem head_of_parseItorAuth {pkt pathid : Datum} {r : ScnxResp Priv} {a : ItorAuth Cert}
    (h : parseItorAuth E profile pkt pathid r = .ok a) :
    parseItorAuthHead E profile pkt pathid r = .ok a.toItorAuthHead := by
  simp only [parseItorAuth, bind_eq_ok] at h
  obtain ⟨head, hhead, pop, -, ha⟩ := h
  obtain rfl := Except.ok.inj ha
  exact hhead

theorem head_of_parseRespAuth {pkt : Datum} {nonce_i : Nonceid} {a : RespAuth}
    (h : parseRespAuth profile nonce_i pkt = .ok a) :
    parseRespAuthHead profile nonce_i pkt = .ok a.toRespAuthHead := by
  simp only [parseRespAuth, bind_eq_ok] at h
  obtain ⟨head, hhead, pop, -, ha⟩ := h
  obtain rfl := Except.ok.inj ha
  exact hhead

/-- What the parser of an ITOR_AUTH has looked at: the first values of the packet, and the
cookie; its proof of possession covers the front of the packet. -/
theorem parseItorAuthHead_spec {pkt pathid : Datum} {r : ScnxResp Priv} {a : ItorAuthHead Cert}
    (h : parseItorAuthHead E profile pkt pathid r = .ok a) :
    ∃ w₁ w₂ w₃ rest, Codec.letter.get pkt = some w₁
      ∧ Codec.nonceid.get w₁.2 = some (a.remote_nonce_i, w₂)
      ∧ Codec.cookieId.get w₂ = some (a.remote_cookie, w₃)
      ∧ r.cookie.check E.hmac (pathid ++ a.remote_nonce_i.buffer) a.remote_cookie = true
      ∧ a.pop_cover_data ++ rest = pkt := by
  simp only [parseItorAuthHead, bind_eq_ok, read_eq_ok, require_eq_ok] at h
  obtain ⟨w₁, h₁, ⟨nonce, w₂⟩, h₂, ⟨cookie, w₃⟩, h₃, -, hcheck, w₄, h₄, -, -, w₅, h₅, w₆, h₆, -, -,
    w₇, h₇, w₈, h₈, ⟨payl, rest⟩, h₉, ha⟩ := h
  obtain rfl := Except.ok.inj ha
  have hsuffix : rest <:+ pkt :=
    calc rest <:+ w₈.2 := Codec.suffix _ h₉
      _ <:+ w₇.2 := Codec.suffix _ h₈
      _ <:+ w₆.2 := Codec.suffix _ h₇
      _ <:+ w₅.2 := Codec.suffix _ h₆
      _ <:+ w₄.2 := E.pub.suffix h₅
      _ <:+ w₃ := E.cert.suffix h₄
      _ <:+ w₂ := Codec.suffix _ h₃
      _ <:+ w₁.2 := Codec.suffix _ h₂
      _ <:+ pkt := Codec.suffix _ h₁
  exact ⟨w₁, w₂, w₃, rest, h₁, h₂, h₃, hcheck, Codec.taken_append hsuffix⟩

theorem parseRespAuthHead_spec {pkt : Datum} {nonce_i : Nonceid} {a : RespAuthHead}
    (h : parseRespAuthHead profile nonce_i pkt = .ok a) :
    ∃ w₁ w₂ w₃ w₄ rest, Codec.letter.get pkt = some w₁
      ∧ Codec.nonceid.get w₁.2 = some (nonce_i, w₂)
      ∧ Codec.authType.get w₂ = some (a.chosen_auth_type, w₃)
      ∧ ItemArr.contain SkeyAuthType.eq a.chosen_auth_type profile.skey_auth_optlist = true
      ∧ Codec.ciphType.get w₃ = some (a.chosen_ciph_type, w₄)
      ∧ ItemArr.contain SkeyCiphType.eq a.chosen_ciph_type profile.skey_ciph_optlist = true
      ∧ a.pop_cover_data ++ rest = pkt := by
  simp only [parseRespAuthHead, bind_eq_ok, read_eq_ok, require_eq_ok] at h
  obtain ⟨w₁, h₁, ⟨nonce, w₂⟩, h₂, -, hnonce, ⟨auth, w₃⟩, h₃, -, hauth, ⟨ciph, w₄⟩, h₄, -, hciph,
    ⟨payl, rest⟩, h₅, ha⟩ := h
  obtain rfl : nonce = nonce_i := of_decide_eq_true hnonce
  obtain rfl := Except.ok.inj ha
  have hsuffix : rest <:+ pkt :=
    calc rest <:+ w₄ := Codec.suffix _ h₅
      _ <:+ w₃ := Codec.suffix _ h₄
      _ <:+ w₂ := Codec.suffix _ h₃
      _ <:+ w₁.2 := Codec.suffix _ h₂
      _ <:+ pkt := Codec.suffix _ h₁
  exact ⟨w₁, w₂, w₃, w₄, rest, h₁, h₂, h₃, hauth, h₄, hciph, Codec.taken_append hsuffix⟩

/-- An ITOR_AUTH whose proof of possession covers what `itorAuthBody` has made is read as it. -/
theorem eq_of_itorAuthBody {pkt pathid : Datum} {r : ScnxResp Priv} {a : ItorAuth Cert}
    {profile_i : ScnxProfile Cert} {nonce_i : Nonceid} {dh_privkey : Priv} {cookie : CookieId}
    {payl : ShortDatum} (h : parseItorAuth E profile pkt pathid r = .ok a)
    (hcover : a.pop_cover_data = itorAuthBody E profile_i nonce_i dh_privkey cookie payl) :
    a.remote_nonce_i = nonce_i ∧ a.remote_cookie = cookie := by
  obtain ⟨w₁, w₂, w₃, rest, h₁, h₂, h₃, -, hpkt⟩ := parseItorAuthHead_spec (head_of_parseItorAuth h)
  rw [hcover] at hpkt
  obtain ⟨-, hw₁⟩ := Codec.letter.eq_of_get_put h₁ hpkt.symm
  rw [List.append_eq, List.append_assoc] at hw₁
  obtain ⟨hnonce, hw₂⟩ := Codec.nonceid.eq_of_get_put h₂ hw₁
  rw [List.append_assoc] at hw₂
  obtain ⟨hcookie, -⟩ := Codec.cookieId.eq_of_get_put h₃ hw₂
  exact ⟨hnonce, hcookie⟩

theorem eq_of_respAuthBody {pkt : Datum} {nonce_i nonce : Nonceid} {a : RespAuth}
    {auth : SkeyAuthType} {ciph : SkeyCiphType} {payl : ShortDatum}
    (h : parseRespAuth profile nonce_i pkt = .ok a)
    (hcover : a.pop_cover_data = respAuthBody nonce auth ciph payl) :
    nonce = nonce_i ∧ a.chosen_auth_type = auth ∧ a.chosen_ciph_type = ciph := by
  obtain ⟨w₁, w₂, w₃, w₄, rest, h₁, h₂, h₃, -, h₄, -, hpkt⟩ :=
    parseRespAuthHead_spec (head_of_parseRespAuth h)
  rw [hcover] at hpkt
  obtain ⟨-, hw₁⟩ := Codec.letter.eq_of_get_put h₁ hpkt.symm
  rw [List.append_eq, List.append_assoc] at hw₁
  obtain ⟨hnonce, hw₂⟩ := Codec.nonceid.eq_of_get_put h₂ hw₁
  rw [List.append_assoc] at hw₂
  obtain ⟨hauth, hw₃⟩ := Codec.authType.eq_of_get_put h₃ hw₂
  rw [List.append_assoc] at hw₃
  obtain ⟨hciph, -⟩ := Codec.ciphType.eq_of_get_put h₄ hw₃
  exact ⟨hnonce.symm, hauth, hciph⟩

/-! ### What the initiator does -/

/-- But for what a packet which is rejected may leave: the name of its sender as long as no
certificate has been verified, and the timer. -/
def Alike (i i' : ScnxItor Priv) : Prop :=
  ∃ remote_idname rxmit_timeout, i' = { i with remote_idname, rxmit_timeout }
    ∧ (i.state = .ITOR_AUTH_SENT → remote_idname = i.remote_idname)

theorem Alike.refl (i : ScnxItor Priv) : Alike i i := ⟨_, _, rfl, fun _ => rfl⟩

theorem itorFromLower_cases (pkt : Datum) (payl : ShortDatum)
    (auxnego : ShortDatum → Option ScnxEstErr) (i : ScnxItor Priv) :
    (∃ err i', itorFromLower E profile pkt payl auxnego i = (some err, i') ∧ Alike i i')
      ∨ (i.state = .CNX_REQ_SENT ∧ ∃ cookie remote_idname master_key,
          itorFromLower E profile pkt payl auxnego i = (none,
            { buildItorAuth E profile cookie payl
                { i with remote_idname, master_key, state := .ITOR_AUTH_SENT }
              with rxmit_timeout := true }))
      ∨ (i.state = .ITOR_AUTH_SENT ∧ pkt.head? = some RESP_AUTH
          ∧ ∃ a, parseRespAuth profile i.nonce_i pkt = .ok a
          ∧ (E.hmac i.master_key a.pop_cover_data).1 = a.remote_pop
          ∧ itorFromLower E profile pkt payl auxnego i = (none,
            { i with
              rxmit_timeout := false
              cnxs := ⟨i.nonce_i, i.remote_cookie, i.master_key, a.chosen_auth_type,
                a.chosen_ciph_type, i.remote_idname⟩ :: i.cnxs })) := by
  cases pkt with
  | nil => exact .inl ⟨_, _, rfl, .refl i⟩
  | cons pkttype rest => ?_
  rw [itorFromLower]
  split_ifs with hreply hstate hresp hstate
  · exact .inl ⟨_, _, rfl, .refl i⟩
  -- a reply counts only in the state which waits for it
  · have hstate : i.state = .CNX_REQ_SENT := not_not.1 hstate
    have hnot : i.state ≠ .ITOR_AUTH_SENT := by
      rw [hstate]
      simp
    rw [recvCnxReply]
    split
    · exact .inl ⟨_, _, rfl, .refl i⟩
    · dsimp only
      split
      · exact .inl ⟨_, _, rfl, _, _, rfl, fun h => absurd h hnot⟩
      · exact .inr (.inl ⟨hstate, _, _, _, rfl⟩)
  · exact .inl ⟨_, _, rfl, .refl i⟩
  · have hstate : i.state = .ITOR_AUTH_SENT := not_not.1 hstate
    rw [recvRespAuth]
    split
    · exact .inl ⟨_, _, rfl, .refl i⟩
    · rename_i a ha
      split_ifs with hpop
      · exact .inl ⟨_, _, rfl, .refl i⟩
      · dsimp only
        split
        · exact .inl ⟨_, _, rfl, _, _, rfl, fun _ => rfl⟩
        · exact .inr (.inr ⟨hstate, congrArg some hresp, a, ha, not_not.1 hpop, rfl⟩)
  · exact .inl ⟨_, _, rfl, .refl i⟩

/-- Initiators which are alike answer a packet in the same way, and are alike after it. -/
theorem Alike.itorFromLower {i i' : ScnxItor Priv} (h : Alike i i') (pkt : Datum)
    (payl : ShortDatum) (auxnego : ShortDatum → Option ScnxEstErr) :
    (itorFromLower E profile pkt payl auxnego i').1
        = (ScnxEst.itorFromLower E profile pkt payl auxnego i).1
      ∧ Alike (ScnxEst.itorFromLower E profile pkt payl auxnego i).2
          (ScnxEst.itorFromLower E profile pkt payl auxnego i').2 := by
  obtain ⟨idname, rxmit, rfl, hidname⟩ := h
  cases pkt with
  | nil => exact ⟨rfl, idname, rxmit, rfl, hidname⟩
  | cons pkttype rest => ?_
  rw [ScnxEst.itorFromLower, ScnxEst.itorFromLower]
  dsimp only
  split_ifs with hreply hstate hresp hstate
  · exact ⟨rfl, idname, rxmit, rfl, hidname⟩
  · have hnot : i.state ≠ .ITOR_AUTH_SENT := by
      rw [not_not.1 hstate]
      simp
    rw [recvCnxReply, recvCnxReply]
    dsimp only
    split
    · exact ⟨rfl, idname, rxmit, rfl, hidname⟩
    · split
      · exact ⟨rfl, _, rxmit, rfl, fun h => absurd h hnot⟩
      · exact ⟨rfl, .refl _⟩
  · exact ⟨rfl, idname, rxmit, rfl, hidname⟩
  · have hidname := hidname (not_not.1 hstate)
    subst hidname
    rw [recvRespAuth, recvRespAuth]
    dsimp only
    split
    · exact ⟨rfl, _, rxmit, rfl, fun _ => rfl⟩
    · split_ifs with hpop
      · exact ⟨rfl, _, rxmit, rfl, fun _ => rfl⟩
      · split
        · exact ⟨rfl, .refl _⟩
        · exact ⟨rfl, .refl _⟩
  · exact ⟨rfl, idname, rxmit, rfl, hidname⟩

theorem Alike.itorTimeout {i i' : ScnxItor Priv} (h : Alike i i') :
    Alike (itorTimeout i) (ScnxEst.itorTimeout i') := by
  obtain ⟨idname, rxmit, rfl, hidname⟩ := h
  rw [ScnxEst.itorTimeout, ScnxEst.itorTimeout]
  split_ifs
  · exact ⟨idname, _, rfl, hidname⟩
  · exact ⟨idname, rxmit, rfl, hidname⟩
  · exact ⟨idname, _, rfl, hidname⟩
  · exact ⟨idname, rxmit, rfl, hidname⟩

/-- The initiators are alike, and the rest is the same. -/
structure AlikePair (s s' : ScnxPair Priv) : Prop where
  itor : Alike s.itor s'.itor
  resp : s'.resp = s.resp
  itor_aborted : s'.itor_aborted = s.itor_aborted
  resp_aborted : s'.resp_aborted = s.resp_aborted

theorem AlikePair.itorAnswer {s s' : ScnxPair Priv} (h : AlikePair s s') (pkt : Datum)
    (payl : ShortDatum) (auxnego : ShortDatum → Option ScnxEstErr) :
    (itorAnswer E profile s' pkt payl auxnego).1
        = (ScnxEst.itorAnswer E profile s pkt payl auxnego).1
      ∧ Alike (ScnxEst.itorAnswer E profile s pkt payl auxnego).2
          (ScnxEst.itorAnswer E profile s' pkt payl auxnego).2 := by
  rw [ScnxEst.itorAnswer, ScnxEst.itorAnswer, h.itor_aborted]
  split_ifs
  · exact ⟨rfl, h.itor⟩
  · exact h.itor.itorFromLower pkt payl auxnego

theorem AlikePair.step {s s' : ScnxPair Priv} (h : AlikePair s s') (ev : EstEvent) :
    AlikePair (step E profile_i profile_r s ev) (ScnxEst.step E profile_i profile_r s' ev) := by
  cases ev with
  | itorPkt pkt payl auxnego =>
    have hanswer : (ScnxEst.itorAnswer E profile_i s' pkt payl auxnego).1 = _ ∧ _ :=
      h.itorAnswer pkt payl auxnego
    exact ⟨hanswer.2, h.resp, by rw [ScnxEst.step, ScnxEst.step, hanswer.1], h.resp_aborted⟩
  | itorTimeout =>
    rw [ScnxEst.step, ScnxEst.step, h.itor_aborted]
    split_ifs
    · exact h
    · exact ⟨h.itor.itorTimeout, h.resp, rfl, h.resp_aborted⟩
  | respPkt pkt pathid auxnego =>
    have hanswer : respAnswer E profile_r s' pkt pathid auxnego
        = respAnswer E profile_r s pkt pathid auxnego := by
      rw [respAnswer, respAnswer, h.resp, h.resp_aborted]
    rw [ScnxEst.step, ScnxEst.step, hanswer]
    split
    · exact ⟨h.itor, rfl, h.itor_aborted, h.resp_aborted⟩
    · exact ⟨h.itor, h.resp, h.itor_aborted, rfl⟩
  | cookieRekey secret =>
    rw [ScnxEst.step, ScnxEst.step, h.resp_aborted]
    split_ifs
    · exact h
    · exact ⟨h.itor, by rw [h.resp], h.itor_aborted, rfl⟩

theorem AlikePair.run {s s' : ScnxPair Priv} (h : AlikePair s s') (evs : List EstEvent) :
    AlikePair (Neoip.run (ScnxEst.step E profile_i profile_r) s evs)
      (Neoip.run (ScnxEst.step E profile_i profile_r) s' evs) := by
  induction evs generalizing s s' with
  | nil => exact h
  | cons ev evs ih => exact ih (h.step ev)

/-- A rejected packet is as if it had not been received. -/
theorem alikePair_of_rejected {s : ScnxPair Priv} {pkt : Datum} {payl : ShortDatum}
    {auxnego : ShortDatum → Option ScnxEstErr} {err : ScnxEstErr}
    (h : (itorAnswer E profile_i s pkt payl auxnego).1 = some (.returned err)) :
    AlikePair s (step E profile_i profile_r s (.itorPkt pkt payl auxnego)) := by
  rw [step, h]
  cases hup : s.itor_aborted with
  | true =>
    rw [itorAnswer, if_pos hup] at h
    nomatch h
  | false =>
    rw [itorAnswer, if_neg (by rw [hup]; exact Bool.false_ne_true)] at h ⊢
    refine ⟨?_, rfl, hup.symm, rfl⟩
    rcases itorFromLower_cases pkt payl auxnego s.itor with
      ⟨stop, i', heq, halike⟩ | ⟨-, _, _, _, heq⟩ | ⟨-, -, _, -, -, heq⟩
    · rw [heq]
      exact halike
    · rw [heq] at h
      nomatch h
    · rw [heq] at h
      nomatch h

/-! ### What a valid packet does -/

theorem read_put {α : Type} (c : Codec UInt8 α) (a : α) (rest : Datum) :
    read c (c.put a ++ rest) = .ok (a, rest) := by
  rw [read_eq_ok]
  exact c.get_put a rest

theorem authorize_of_allowed {cert : Cert} (h : profile.scnx_auth_ftor cert = none) :
    authorize profile cert = .ok () := by
  rw [authorize, h]

theorem itorFromLower_reply {i : ScnxItor Priv} (hstate : i.state = .CNX_REQ_SENT)
    {cookie : CookieId} {cert : Cert} {pub : Pub} {signature payl : ShortDatum}
    {auxnego : ShortDatum → Option ScnxEstErr} (hallowed : profile.scnx_auth_ftor cert = none)
    (hverify : E.verify_data cert (E.cert.put cert ++ E.pub.put pub) signature.1 = true) :
    let r := itorFromLower E profile (CNX_REPLY :: (i.nonce_i.buffer ++ (cookie.1
      ++ (E.cert.put cert ++ (E.pub.put pub ++ Codec.datum.put signature))))) payl auxnego i
    r.1 = none ∧ r.2.state = .ITOR_AUTH_SENT := by
  have hcert : parseCnxReplyCert E profile i.nonce_i (CNX_REPLY :: (i.nonce_i.buffer ++ (cookie.1
      ++ (E.cert.put cert ++ (E.pub.put pub ++ Codec.datum.put signature)))))
      = .ok (cookie, cert, E.cert.put cert ++ (E.pub.put pub ++ Codec.datum.put signature),
          E.pub.put pub ++ Codec.datum.put signature) := by
    simp only [parseCnxReplyCert, bind_eq_ok]
    refine ⟨_, read_put .letter CNX_REPLY _, _, read_put .nonceid i.nonce_i _, (), ?_, _,
      read_put .cookieId cookie _, _, read_put E.cert cert _, (), authorize_of_allowed hallowed,
      rfl⟩
    rw [require_eq_ok]
    exact decide_eq_true rfl
  have hpub : parseCnxReplyPub E cert
      (E.cert.put cert ++ (E.pub.put pub ++ Codec.datum.put signature))
      (E.pub.put pub ++ Codec.datum.put signature) = .ok pub := by
    have hsign := read_put .datum signature []
    rw [List.append_nil] at hsign
    simp only [parseCnxReplyPub, bind_eq_ok]
    refine ⟨_, read_put E.pub pub _, _, hsign, (), ?_, rfl⟩
    rw [require_eq_ok, ← List.append_assoc, Codec.taken_left]
    exact hverify
  rw [itorFromLower, if_pos rfl, if_neg (not_not.2 hstate), recvCnxReply, hcert]
  dsimp only
  rw [hpub]
  exact ⟨rfl, rfl⟩

theorem tailConsume_mac (mac : CookieId) : tailConsume mac.1 = .ok mac.1 := by
  rw [tailConsume, if_pos (Nat.le_of_eq mac.2.symm), mac.2, Nat.sub_self, List.drop_zero]

theorem parseRespAuth_respAuthBody {nonce_i : Nonceid} {auth : SkeyAuthType}
    {ciph : SkeyCiphType} {payl : ShortDatum} {mac : CookieId}
    (hauth : ItemArr.contain SkeyAuthType.eq auth profile.skey_auth_optlist = true)
    (hciph : ItemArr.contain SkeyCiphType.eq ciph profile.skey_ciph_optlist = true) :
    parseRespAuth profile nonce_i (respAuthBody nonce_i auth ciph payl ++ mac.1)
      = .ok ⟨⟨auth, ciph, payl, respAuthBody nonce_i auth ciph payl, mac.1⟩, mac.1⟩ := by
  have hpkt : respAuthBody nonce_i auth ciph payl ++ mac.1
      = Codec.letter.put RESP_AUTH ++ (Codec.nonceid.put nonce_i ++ (Codec.authType.put auth
          ++ (Codec.ciphType.put ciph ++ (Codec.datum.put payl ++ mac.1)))) := by
    rw [respAuthBody, List.cons_append, List.append_assoc, List.append_assoc, List.append_assoc]
    rfl
  simp only [parseRespAuth, parseRespAuthHead, bind_eq_ok]
  rw [hpkt]
  refine ⟨_, ⟨_, read_put _ _ _, _, read_put _ _ _, (), ?_, _, read_put _ _ _, (), ?_, _,
    read_put _ _ _, (), ?_, _, read_put _ _ _, rfl⟩, _, tailConsume_mac mac, ?_⟩
  · rw [require_eq_ok]
    exact decide_eq_true rfl
  · rw [require_eq_ok]
    exact hauth
  · rw [require_eq_ok]
    exact hciph
  · rw [← hpkt, Codec.taken_left]

theorem itorFromLower_respAuth {i : ScnxItor Priv} (hstate : i.state = .ITOR_AUTH_SENT)
    {auth : SkeyAuthType} {ciph : SkeyCiphType} {payl payl' : ShortDatum}
    {auxnego : ShortDatum → Option ScnxEstErr}
    (hauth : ItemArr.contain SkeyAuthType.eq auth profile.skey_auth_optlist = true)
    (hciph : ItemArr.contain SkeyCiphType.eq ciph profile.skey_ciph_optlist = true)
    (hauxnego : auxnego payl = none) :
    itorFromLower E profile (respAuthBody i.nonce_i auth ciph payl
        ++ (E.hmac i.master_key (respAuthBody i.nonce_i auth ciph payl)).1) payl' auxnego i
      = (none, { i with
          rxmit_timeout := false
          cnxs := ⟨i.nonce_i, i.remote_cookie, i.master_key, auth, ciph, i.remote_idname⟩
            :: i.cnxs }) := by
  have hparse (mac : CookieId) :
      parseRespAuth profile i.nonce_i (respAuthBody i.nonce_i auth ciph payl ++ mac.1)
        = .ok ⟨⟨auth, ciph, payl, respAuthBody i.nonce_i auth ciph payl, mac.1⟩, mac.1⟩ :=
    parseRespAuth_respAuthBody hauth hciph
  have htype : itorFromLower E profile (respAuthBody i.nonce_i auth ciph payl
        ++ (E.hmac i.master_key (respAuthBody i.nonce_i auth ciph payl)).1) payl' auxnego i
      = recvRespAuth E profile (respAuthBody i.nonce_i auth ciph payl
        ++ (E.hmac i.master_key (respAuthBody i.nonce_i auth ciph payl)).1) auxnego i := by
    have hne : RESP_AUTH ≠ CNX_REPLY := by decide
    rw [respAuthBody, List.cons_append, itorFromLower, if_neg hne, if_pos rfl,
      if_neg (not_not.2 hstate)]
  rw [htype, recvRespAuth, hparse]
  dsimp only
  rw [if_neg (not_not.2 rfl)]
  rw [hauxnego]

/-! ### What the responder does -/

theorem mem_of_choose {α : Type} {eq : α → α → Bool} {other arr : ItemArr α} {item : α}
    (h : choose eq other arr = .ok item) : item ∈ arr.1 := by
  rw [choose] at h
  split at h
  · rename_i item' hfind
    obtain rfl := Except.ok.inj h
    exact List.mem_of_find?_eq_some hfind
  · nomatch h

theorem respFromLower_cases {pkt pathid reply : Datum}
    {auxnego : ShortDatum → Except ScnxEstErr ShortDatum} {r r' : ScnxResp Priv}
    (h : respFromLower E profile pkt pathid auxnego r = .ok (reply, r')) :
    r' = r ∨ pkt.head? = some ITOR_AUTH ∧ ∃ a auth ciph payl,
      parseItorAuth E profile pkt pathid r = .ok a
      ∧ (E.hmac a.master_key a.pop_cover_data).1 = a.remote_pop
      ∧ auth ∈ profile.skey_auth_optlist.1 ∧ ciph ∈ profile.skey_ciph_optlist.1
      ∧ r' = { r with
          cookie := r.cookie.accept E.hmac (pathid ++ a.remote_nonce_i.buffer) a.remote_cookie
          pops := (a.master_key, respAuthBody a.remote_nonce_i auth ciph payl) :: r.pops
          cnxs := ⟨a.remote_nonce_i, a.remote_cookie, a.master_key, auth, ciph,
            E.get_subject_name a.remote_cert⟩ :: r.cnxs } := by
  cases pkt with
  | nil => nomatch h
  | cons pkttype rest => ?_
  rw [respFromLower] at h
  split_ifs at h with hrequest hitor
  · obtain ⟨reply', -, heq⟩ := bind_eq_ok.1 h
    exact .inl (Prod.mk.inj (Except.ok.inj heq)).2.symm
  · simp only [recvItorAuth, bind_eq_ok, require_eq_ok] at h
    obtain ⟨a, ha, -, hpop, auth, hauth, ciph, hciph, payl, -, heq⟩ := h
    exact .inr ⟨congrArg some hitor, a, auth, ciph, payl, ha, of_decide_eq_true hpop,
      mem_of_choose hauth, mem_of_choose hciph, (Prod.mk.inj (Except.ok.inj heq)).2.symm⟩

/-! ### Where a process ends -/

theorem bind_eq_error {ε α β : Type} {x : Except ε α} {f : α → Except ε β} {e : ε} :
    (x >>= f) = .error e ↔ x = .error e ∨ ∃ a, x = .ok a ∧ f a = .error e := by
  cases x with
  | error err =>
    constructor
    · intro h
      exact .inl (congrArg Except.error (Except.error.inj h))
    · rintro (h | ⟨_, h, -⟩)
      · exact congrArg Except.error (Except.error.inj h)
      · nomatch h
  | ok a =>
    constructor
    · exact fun h => .inr ⟨a, rfl, h⟩
    · rintro (h | ⟨_, ⟨⟩, h⟩)
      · nomatch h
      · exact h

theorem mem_toOption {ε α : Type} {x : Except ε α} {a : α} : a ∈ x.toOption ↔ x = .ok a := by
  cases x with
  | error err => exact ⟨nofun, nofun⟩
  | ok b => rw [Except.toOption, Option.mem_some_iff, Except.ok.injEq]

theorem read_ne_aborted {α : Type} {c : Codec UInt8 α} {pkt : Datum} :
    read c pkt = .error .aborted ↔ False := by
  rw [read]
  cases c.get pkt <;> simp

theorem require_ne_aborted {ok : Bool} {err : ScnxEstErr} :
    require ok err = .error .aborted ↔ False := by
  cases ok <;> simp [require]

theorem authorize_ne_aborted {cert : Cert} : authorize profile cert = .error .aborted ↔ False := by
  rw [authorize]
  cases profile.scnx_auth_ftor cert <;> simp

theorem choose_ne_aborted {α : Type} {eq : α → α → Bool} {other arr : ItemArr α} :
    choose eq other arr = .error .aborted ↔ False := by
  rw [choose]
  cases ItemArr.findFirstCommon eq other arr <;> simp

theorem mapError_ne_aborted {α : Type} {x : Except ScnxEstErr α} :
    x.mapError ScnxEnd.returned = .error .aborted ↔ False := by
  cases x <;> simp [Except.mapError]

theorem tailConsume_eq_aborted {pkt : Datum} :
    tailConsume pkt = .error .aborted ↔ pkt.length < 20 := by
  rw [tailConsume]
  split_ifs with hlen
  · simpa using hlen
  · simpa using hlen

theorem parseRespAuth_eq_aborted {nonce_i : Nonceid} {pkt : Datum} :
    parseRespAuth profile nonce_i pkt = .error .aborted ↔
      ∃ a, parseRespAuthHead profile nonce_i pkt = .ok a ∧ a.rest.length < 20 := by
  have hhead : parseRespAuthHead profile nonce_i pkt = .error .aborted ↔ False := by
    simp only [parseRespAuthHead, bind_eq_error, read_ne_aborted, require_ne_aborted]
    simp
  simp only [parseRespAuth, bind_eq_error, hhead, tailConsume_eq_aborted]
  simp

theorem parseItorAuth_eq_aborted {pkt pathid : Datum} {r : ScnxResp Priv} :
    parseItorAuth E profile pkt pathid r = .error .aborted ↔
      ∃ a, parseItorAuthHead E profile pkt pathid r = .ok a ∧ a.rest.length < 20 := by
  have hhead : parseItorAuthHead E profile pkt pathid r = .error .aborted ↔ False := by
    simp only [parseItorAuthHead, bind_eq_error, read_ne_aborted, require_ne_aborted,
      authorize_ne_aborted]
    simp
  simp only [parseItorAuth, bind_eq_error, hhead, tailConsume_eq_aborted]
  simp

theorem parseCnxReplyCert_ne_aborted {nonce_i : Nonceid} {pkt : Datum} :
    parseCnxReplyCert E profile nonce_i pkt = .error .aborted ↔ False := by
  simp only [parseCnxReplyCert, bind_eq_error, read_ne_aborted, require_ne_aborted,
    authorize_ne_aborted]
  simp

theorem parseCnxReplyPub_ne_aborted {cert : Cert} {cover pkt : Datum} :
    parseCnxReplyPub E cert cover pkt = .error .aborted ↔ False := by
  simp only [parseCnxReplyPub, bind_eq_error, read_ne_aborted, require_ne_aborted]
  simp

/-- The initiator ends on a RESP_AUTH which is too short for its proof of possession. -/
theorem itorFromLower_eq_aborted {pkt : Datum} {payl : ShortDatum}
    {auxnego : ShortDatum → Option ScnxEstErr} {i : ScnxItor Priv} :
    (itorFromLower E profile pkt payl auxnego i).1 = some .aborted ↔
      i.state = .ITOR_AUTH_SENT ∧ pkt.head? = some RESP_AUTH ∧
        ∃ a, parseRespAuthHead profile i.nonce_i pkt = .ok a ∧ a.rest.length < 20 := by
  rw [← parseRespAuth_eq_aborted]
  cases pkt with
  | nil => simp [itorFromLower]
  | cons pkttype rest => ?_
  rw [itorFromLower, List.head?_cons, Option.some.injEq]
  have hne : pkttype = CNX_REPLY → ¬ pkttype = RESP_AUTH := by
    rintro rfl
    decide
  split_ifs with hreply hstate hresp hstate
  · exact iff_of_false (by simp) fun h => hne hreply h.2.1
  · -- a CNX_REPLY is read with exceptions only
    refine iff_of_false ?_ fun h => hne hreply h.2.1
    rw [recvCnxReply]
    split
    · rename_i stop hstop
      rintro ⟨⟩
      exact parseCnxReplyCert_ne_aborted.1 hstop
    · dsimp only
      split
      · rename_i stop hstop
        rintro ⟨⟩
        exact parseCnxReplyPub_ne_aborted.1 hstop
      · rintro ⟨⟩
  · simp [hstate]
  · rw [recvRespAuth]
    have hstate : i.state = .ITOR_AUTH_SENT := not_not.1 hstate
    split
    · rename_i stop hstop
      rw [hstop]
      simp [hstate, hresp]
    · rename_i a ha
      refine iff_of_false ?_ ?_
      · split_ifs
        · rintro ⟨⟩
        · dsimp only
          split <;> rintro ⟨⟩
      · rintro ⟨-, -, h⟩
        rw [ha] at h
        cases h
  · simp [hresp]

/-- The responder ends on an ITOR_AUTH which is too short for its proof of possession. -/
theorem respFromLower_eq_aborted {pkt pathid : Datum}
    {auxnego : ShortDatum → Except ScnxEstErr ShortDatum} {r : ScnxResp Priv} :
    respFromLower E profile pkt pathid auxnego r = .error .aborted ↔
      pkt.head? = some ITOR_AUTH ∧
        ∃ a, parseItorAuthHead E profile pkt pathid r = .ok a ∧ a.rest.length < 20 := by
  rw [← parseItorAuth_eq_aborted]
  cases pkt with
  | nil => simp [respFromLower]
  | cons pkttype rest => ?_
  rw [respFromLower, List.head?_cons, Option.some.injEq]
  split_ifs with hrequest hitor
  · have hne : ¬ pkttype = ITOR_AUTH := by
      rw [hrequest]
      decide
    refine iff_of_false ?_ fun h => hne h.1
    simp only [recvCnxRequest, bind_eq_error, read_ne_aborted]
    simp
  · simp only [recvItorAuth, bind_eq_error, require_ne_aborted, choose_ne_aborted,
      mapError_ne_aborted]
    simp [hitor]
  · simp [hitor]

theorem itorAnswer_of_up {s : ScnxPair Priv} (hup : s.itor_aborted = false) (pkt : Datum)
    (payl : ShortDatum) (auxnego : ShortDatum → Option ScnxEstErr) :
    itorAnswer E profile s pkt payl auxnego = itorFromLower E profile pkt payl auxnego s.itor := by
  rw [itorAnswer, hup, if_neg Bool.false_ne_true]

theorem respAnswer_of_up {s : ScnxPair Priv} (hup : s.resp_aborted = false) (pkt pathid : Datum)
    (auxnego : ShortDatum → Except ScnxEstErr ShortDatum) :
    respAnswer E profile s pkt pathid auxnego
      = respFromLower E profile pkt pathid auxnego s.resp := by
  rw [respAnswer, hup, if_neg Bool.false_ne_true]

/-! ### The invariant -/

variable (E profile_i profile_r) in
structure Inv (s : ScnxPair Priv) : Prop where
  waiting : s.itor.state = .CNX_REQ_SENT → s.itor.pops = [] ∧ s.itor.cnxs = []
  itor_pops : ∀ p ∈ s.itor.pops, ∃ payl, p = (s.itor.master_key,
    itorAuthBody E profile_i s.itor.nonce_i s.itor.dh_privkey s.itor.remote_cookie payl)
  /-- A connection of the initiator is one of the responder too. -/
  itor_cnxs : ∀ c ∈ s.itor.cnxs, c.cookie_id = s.itor.remote_cookie
    ∧ c.master_key = s.itor.master_key ∧ Proposed profile_i c ∧ ∃ k ∈ s.resp.cnxs, SameCnx c k
  resp_pops : ∀ p ∈ s.resp.pops, ∃ k ∈ s.resp.cnxs, ∃ payl, p = (k.master_key,
    respAuthBody k.nonce_i k.chosen_auth_type k.chosen_ciph_type payl)
  resp_cnxs : ∀ k ∈ s.resp.cnxs, Proposed profile_r k
  /-- The master key of the initiator has been used with its cookie only. -/
  key : s.itor.state = .ITOR_AUTH_SENT → ∀ k ∈ s.resp.cnxs,
    k.master_key = s.itor.master_key → k.cookie_id = s.itor.remote_cookie
  cookies : s.resp.cnxs.map EstCnx.cookie_id = s.resp.cookie.accepted.map Prod.snd
  once : s.resp.cookie.Once

variable {s : ScnxPair Priv}

theorem inv_start (reliable : Bool) (nonce_i : Nonceid) (priv_i priv_r : Priv) (secret : Datum) :
    Inv E profile_i profile_r (start reliable nonce_i priv_i priv_r secret) where
  waiting _ := ⟨rfl, rfl⟩
  itor_pops _ h := nomatch h
  itor_cnxs _ h := nomatch h
  resp_pops _ h := nomatch h
  resp_cnxs _ h := nomatch h
  key h := nomatch h
  cookies := rfl
  once := CookieDb.once_ctor secret

theorem Inv.sent_of_mem (h : Inv E profile_i profile_r s) {c : EstCnx} (hc : c ∈ s.itor.cnxs) :
    s.itor.state = .ITOR_AUTH_SENT := by
  rcases hstate : s.itor.state with - | -
  · rw [(h.waiting hstate).2] at hc
    nomatch hc
  · rfl

theorem Inv.safe_agree (h : Inv E profile_i profile_r s) {c k : EstCnx} (hc : c ∈ s.itor.cnxs)
    (hk : k ∈ s.resp.cnxs) (hcookie : c.cookie_id = k.cookie_id) :
    SameCnx c k ∧ Proposed profile_i c ∧ Proposed profile_r c := by
  obtain ⟨hremote, hmaster, hproposed, k', hk', hsame⟩ := h.itor_cnxs c hc
  have hcookie' : k'.cookie_id = s.itor.remote_cookie :=
    h.key (h.sent_of_mem hc) k' hk' (hsame.1 ▸ hmaster)
  have hnodup : (s.resp.cnxs.map EstCnx.cookie_id).Nodup := h.cookies ▸ h.once.nodup
  obtain rfl : k' = k := by
    apply List.inj_on_of_nodup_map hnodup hk' hk
    rw [hcookie', ← hremote, hcookie]
  refine ⟨hsame, hproposed, ?_⟩
  rw [Proposed, hsame.2.1, hsame.2.2]
  exact h.resp_cnxs k' hk

theorem Inv.itorPkt (h : Inv E profile_i profile_r s) (hup : s.itor_aborted = false)
    {pkt : Datum} {payl : ShortDatum} {auxnego : ShortDatum → Option ScnxEstErr}
    (hideal : Ideal E profile_i profile_r s (.itorPkt pkt payl auxnego)) :
    Inv E profile_i profile_r (step E profile_i profile_r s (.itorPkt pkt payl auxnego)) := by
  obtain ⟨hmac, hfresh⟩ := hideal
  rw [step, itorAnswer_of_up hup]
  rcases itorFromLower_cases pkt payl auxnego s.itor with
    ⟨stop, i', heq, idname, rxmit, rfl, -⟩ | ⟨hstate, cookie, idname, key, heq⟩
      | ⟨hstate, hhead, a, ha, hpop, heq⟩
  · rw [heq]
    exact ⟨h.waiting, h.itor_pops, h.itor_cnxs, h.resp_pops, h.resp_cnxs, h.key, h.cookies, h.once⟩
  · rw [heq] at hfresh ⊢
    obtain ⟨hpops, hcnxs⟩ := h.waiting hstate
    refine ⟨?_, ?_, ?_, h.resp_pops, h.resp_cnxs, ?_, h.cookies, h.once⟩
    · nofun
    · intro p hp
      rcases List.mem_cons.1 hp with rfl | hp
      · exact ⟨payl, rfl⟩
      · have hp : p ∈ s.itor.pops := hp
        rw [hpops] at hp
        nomatch hp
    · intro c hc
      have hc : c ∈ s.itor.cnxs := hc
      rw [hcnxs] at hc
      nomatch hc
    · intro _ k hk hkey
      exact absurd hkey (hfresh hstate k hk)
  · rw [heq]
    refine ⟨?_, h.itor_pops, ?_, h.resp_pops, h.resp_cnxs, h.key, h.cookies, h.once⟩
    · intro hwaiting
      nomatch hstate.symm.trans hwaiting
    intro c hc
    rcases List.mem_cons.1 hc with rfl | hc
    · obtain ⟨_, _, _, _, rest, -, -, -, hauth, -, hciph, hpkt⟩ := parseRespAuthHead_spec
        (head_of_parseRespAuth ha)
      refine ⟨rfl, rfl, ⟨hauth, hciph⟩, ?_⟩
      have hmem : Made s s.itor.master_key a.pop_cover_data :=
        hmac hstate a (by rw [ha]; rfl) hpop
      rcases List.mem_append.1 hmem with hmem | hmem
      · -- what the initiator has sent is not taken for a reply
        obtain ⟨payl', hbody⟩ := h.itor_pops _ hmem
        rw [(Prod.mk.inj hbody).2] at hpkt
        rw [← hpkt] at hhead
        exact absurd (Option.some.inj hhead) (by decide)
      · obtain ⟨k, hk, payl', hbody⟩ := h.resp_pops _ hmem
        obtain ⟨hkey, hbody⟩ := Prod.mk.inj hbody
        obtain ⟨-, hauth', hciph'⟩ := eq_of_respAuthBody ha hbody
        exact ⟨k, hk, hkey, hauth', hciph'⟩
    · exact h.itor_cnxs c hc

theorem Inv.itorTimeout (h : Inv E profile_i profile_r s) (hup : s.itor_aborted = false) :
    Inv E profile_i profile_r (step E profile_i profile_r s .itorTimeout) := by
  have hitor : ∃ rxmit_timeout, ScnxEst.itorTimeout s.itor = { s.itor with rxmit_timeout } := by
    rw [ScnxEst.itorTimeout]
    split_ifs
    · exact ⟨_, rfl⟩
    · exact ⟨_, rfl⟩
  obtain ⟨rxmit, hitor⟩ := hitor
  rw [step, if_neg (by rw [hup]; exact Bool.false_ne_true), hitor]
  exact ⟨h.waiting, h.itor_pops, h.itor_cnxs, h.resp_pops, h.resp_cnxs, h.key, h.cookies, h.once⟩

theorem Inv.respPkt (h : Inv E profile_i profile_r s) (hup : s.resp_aborted = false) {pkt pathid : Datum}
    {auxnego : ShortDatum → Except ScnxEstErr ShortDatum}
    (hideal : Ideal E profile_i profile_r s (.respPkt pkt pathid auxnego)) :
    Inv E profile_i profile_r (step E profile_i profile_r s (.respPkt pkt pathid auxnego)) := by
  rw [step, respAnswer_of_up hup]
  split
  swap
  · exact ⟨h.waiting, h.itor_pops, h.itor_cnxs, h.resp_pops, h.resp_cnxs, h.key, h.cookies, h.once⟩
  rename_i reply resp hresp
  rcases respFromLower_cases hresp with
    rfl | ⟨hhead, a, auth, ciph, payl, ha, hpop, hauth, hciph, rfl⟩
  · exact h
  obtain ⟨hmade, hone⟩ := hideal a (by rw [ha]; rfl) hpop
  obtain ⟨_, _, _, rest, -, -, -, hcheck, hpkt⟩ := parseItorAuthHead_spec (head_of_parseItorAuth ha)
  refine ⟨h.waiting, h.itor_pops, ?_, ?_, ?_, ?_, ?_, h.once.accept hcheck hone⟩
  · intro c hc
    obtain ⟨hremote, hmaster, hproposed, k, hk, hsame⟩ := h.itor_cnxs c hc
    exact ⟨hremote, hmaster, hproposed, k, List.mem_cons_of_mem _ hk, hsame⟩
  · intro p hp
    rcases List.mem_cons.1 hp with rfl | hp
    · exact ⟨_, List.mem_cons_self, payl, rfl⟩
    · obtain ⟨k, hk, payl', hbody⟩ := h.resp_pops p hp
      exact ⟨k, List.mem_cons_of_mem _ hk, payl', hbody⟩
  · intro k hk
    rcases List.mem_cons.1 hk with rfl | hk
    · exact ⟨ItemArr.contain_of_mem SkeyAuthType.eq_refl hauth,
        ItemArr.contain_of_mem SkeyCiphType.eq_refl hciph⟩
    · exact h.resp_cnxs k hk
  · intro hstate k hk hkey
    rcases List.mem_cons.1 hk with rfl | hk
    · rcases List.mem_append.1 (hmade hstate hkey) with hmem | hmem
      · obtain ⟨payl', hbody⟩ := h.itor_pops _ hmem
        exact (eq_of_itorAuthBody ha (Prod.mk.inj hbody).2).2
      · -- what the responder has replied is not taken for an ITOR_AUTH
        obtain ⟨k', -, payl', hbody⟩ := h.resp_pops _ hmem
        rw [(Prod.mk.inj hbody).2] at hpkt
        rw [← hpkt] at hhead
        exact absurd (Option.some.inj hhead) (by decide)
    · exact h.key hstate k hk hkey
  · show a.remote_cookie :: s.resp.cnxs.map EstCnx.cookie_id = _
    rw [CookieDb.map_accepted_accept hcheck, h.cookies]

theorem Inv.cookieRekey (h : Inv E profile_i profile_r s) (hup : s.resp_aborted = false)
    {secret : Datum} (hfresh : secret ∉ s.resp.cookie.secrets) :
    Inv E profile_i profile_r (step E profile_i profile_r s (.cookieRekey secret)) := by
  rw [step, if_neg (by rw [hup]; exact Bool.false_ne_true)]
  exact ⟨h.waiting, h.itor_pops, h.itor_cnxs, h.resp_pops, h.resp_cnxs, h.key, h.cookies,
    h.once.rekey hfresh⟩

theorem Inv.step (h : Inv E profile_i profile_r s) (hup : s.Up) {ev : EstEvent}
    (hideal : Ideal E profile_i profile_r s ev) :
    Inv E profile_i profile_r (step E profile_i profile_r s ev) := by
  cases ev with
  | itorPkt pkt payl auxnego => exact h.itorPkt hup.itor hideal
  | itorTimeout => exact h.itorTimeout hup.itor
  | respPkt pkt pathid auxnego => exact h.respPkt hup.resp hideal
  | cookieRekey secret => exact h.cookieRekey hup.resp hideal

/-! ### What they agree on -/

theorem Inv.safe (h : Inv E profile_i profile_r s) (hup : s.Up) :
    Safe E profile_i profile_r s where
  agree _ hc _ hk _ hcookie := h.safe_agree hc hk hcookie
  once := h.cookies ▸ h.once.nodup
  rejected pkt payl auxnego err hrejected evs pkt' payl' auxnego' := by
    have halike : AlikePair
        (run (ScnxEst.step E profile_i profile_r) s evs)
        (run (ScnxEst.step E profile_i profile_r)
          (ScnxEst.step E profile_i profile_r s (.itorPkt pkt payl auxnego)) evs) :=
      AlikePair.run (alikePair_of_rejected hrejected) evs
    refine ⟨?_, (halike.itorAnswer pkt' payl' auxnego').1⟩
    obtain ⟨_, _, heq, -⟩ := halike.itor
    have hcnxs := congrArg ScnxItor.cnxs heq
    exact hcnxs
  completes pkt payl auxnego hvalid := by
    dsimp only
    rw [itorAnswer_of_up hup.itor]
    cases hvalid with
    | reply cookie cert pub signature hstate hallowed hverify =>
      obtain ⟨hnone, hsent⟩ := itorFromLower_reply hstate hallowed hverify
      refine ⟨hnone, hsent, ?_⟩
      rw [hstate]
      nofun
    | auth auth ciph payl' hstate hauth hciph hauxnego =>
      rw [itorFromLower_respAuth hstate hauth hciph hauxnego]
      exact ⟨rfl, hstate, fun _ => rfl⟩
  answers nonce pathid auxnego := by
    have hnonce := read_put .nonceid nonce []
    rw [List.append_nil] at hnonce
    rw [respAnswer_of_up hup.resp, buildCnxRequest, respFromLower, if_pos rfl]
    exact ⟨_, bind_eq_ok.2 ⟨_, bind_eq_ok.2 ⟨_, rfl, bind_eq_ok.2 ⟨_, hnonce, rfl⟩⟩, rfl⟩⟩

/-- With a proof of possession no process ends. -/
theorem up_step (hup : s.Up) {ev : EstEvent} (hpop : HasPop E profile_i profile_r s ev) :
    (ScnxEst.step E profile_i profile_r s ev).Up := by
  cases ev with
  | itorPkt pkt payl auxnego =>
    refine ⟨?_, hup.resp⟩
    show decide (_ = _) = false
    rw [itorAnswer_of_up hup.itor, decide_eq_false_iff_not, itorFromLower_eq_aborted]
    rintro ⟨hstate, hhead, a, ha, hlen⟩
    have := hpop hstate hhead a (by rw [ha]; rfl)
    omega
  | itorTimeout =>
    rw [ScnxEst.step, if_neg (by rw [hup.itor]; exact Bool.false_ne_true)]
    exact ⟨hup.itor, hup.resp⟩
  | respPkt pkt pathid auxnego =>
    rw [ScnxEst.step, respAnswer_of_up hup.resp]
    split
    · exact ⟨hup.itor, hup.resp⟩
    · rename_i stop hstop
      refine ⟨hup.itor, decide_eq_false ?_⟩
      rintro rfl
      obtain ⟨hhead, a, ha, hlen⟩ := respFromLower_eq_aborted.1 hstop
      have := hpop hhead a (by rw [ha]; rfl)
      omega
  | cookieRekey secret =>
    rw [ScnxEst.step, if_neg (by rw [hup.resp]; exact Bool.false_ne_true)]
    exact ⟨hup.itor, hup.resp⟩

/-- Without one a process ends, and its party does not go on. -/
theorem not_safe_step (hup : s.Up) {ev : EstEvent} (hpop : ¬ HasPop E profile_i profile_r s ev) :
    ¬ Safe E profile_i profile_r (ScnxEst.step E profile_i profile_r s ev) := by
  intro hsafe
  cases ev with
  | itorPkt pkt payl auxnego =>
    simp only [HasPop, not_forall] at hpop
    obtain ⟨hstate, hhead, a, ha, hlen⟩ := hpop
    rw [mem_toOption] at ha
    obtain ⟨_, _, _, _, _, -, -, -, hauth, -, hciph, -⟩ := parseRespAuthHead_spec ha
    have habort : (itorFromLower E profile_i pkt payl auxnego s.itor).1 = some .aborted :=
      itorFromLower_eq_aborted.2 ⟨hstate, hhead, a, ha, Nat.lt_of_not_le hlen⟩
    rcases itorFromLower_cases pkt payl auxnego s.itor with
      ⟨stop, i', heq, idname, rxmit, rfl, -⟩ | ⟨-, _, _, _, heq⟩ | ⟨-, -, _, -, -, heq⟩
    · -- the types which were read are options, so that there is a valid packet
      rw [ScnxEst.step, itorAnswer_of_up hup.itor, heq] at hsafe
      obtain ⟨hnone, -⟩ := hsafe.completes _ payl (fun _ => none)
        (.auth a.chosen_auth_type a.chosen_ciph_type a.auxnego_payl hstate hauth hciph rfl)
      rw [heq] at habort
      obtain rfl := Option.some.inj habort
      rw [itorAnswer, if_pos (decide_eq_true rfl)] at hnone
      nomatch hnone
    · rw [heq] at habort
      nomatch habort
    · rw [heq] at habort
      nomatch habort
  | itorTimeout => exact hpop trivial
  | respPkt pkt pathid auxnego =>
    simp only [HasPop, not_forall] at hpop
    obtain ⟨hhead, a, ha, hlen⟩ := hpop
    rw [mem_toOption] at ha
    have habort : respFromLower E profile_r pkt pathid auxnego s.resp = .error .aborted :=
      respFromLower_eq_aborted.2 ⟨hhead, a, ha, Nat.lt_of_not_le hlen⟩
    rw [ScnxEst.step, respAnswer_of_up hup.resp, habort] at hsafe
    obtain ⟨reply, hreply⟩ := hsafe.answers s.itor.nonce_i pathid auxnego
    rw [respAnswer, if_pos (decide_eq_true rfl)] at hreply
    nomatch hreply
  | cookieRekey secret => exact hpop trivial

/-- A MAC in miniature. -/
def tinySum (data : Datum) : UInt8 := data.foldl (fun h b => 31 * h + b) 7

def tinyEnv : ScnxEnv UInt8 UInt8 UInt8 where
  cert := .letter
  pub := .letter
  get_subject_name _ := "peer"
  verify_data cert data signature := signature = [tinySum (cert :: data)]
  get_pubkey priv := 3 * priv
  shsecret priv pub := [priv * pub]
  hmac key data := ⟨List.replicate 20 (tinySum (key ++ data)), List.length_replicate⟩

def tinyProfile (cert : UInt8) : ScnxProfile UInt8 where
  ident_cert := cert
  sign_data data := ⟨[tinySum (cert :: data)], show 1 < 2 ^ 32 by decide⟩
  skey_auth_optlist := ⟨[⟨1, 1, 20⟩], by decide⟩
  skey_ciph_optlist := ⟨[⟨1, 2⟩], by decide⟩
  scnx_auth_ftor _ := none

def tinyNonce : Nonceid := ⟨[3, 1, 4, 1, 5, 9, 2, 6], rfl⟩

def tinyStart : ScnxPair UInt8 := start false tinyNonce 5 7 [9]

/-- What the responder replies to a CNX_REQUEST. -/
def tinyReply : Datum :=
  let cookie := tinyStart.resp.cookie.generate tinyEnv.hmac ([4] ++ tinyNonce.buffer)
  CNX_REPLY :: (tinyNonce.buffer ++ (cookie.1 ++ signedPayload tinyEnv (tinyProfile 2) 7))

/-- A RESP_AUTH but for its proof of possession. -/
def tinyBody : Datum := respAuthBody tinyNonce ⟨1, 1, 20⟩ ⟨1, 2⟩ ⟨[], by decide⟩

/-- A stray packet, a reply, a renewal of the cookies, an ITOR_AUTH and a RESP_AUTH. -/
def tinyEvents : List EstEvent :=
  let payl : ShortDatum := ⟨[], by decide⟩
  let i := (itorFromLower tinyEnv (tinyProfile 1) tinyReply payl (fun _ => none) tinyStart.itor).2
  [.itorPkt [RESP_AUTH] payl (fun _ => none), .itorPkt tinyReply payl (fun _ => none),
    .itorTimeout, .cookieRekey [8], .respPkt i.rxmit_pkt [4] (fun _ => .ok payl),
    .itorPkt (tinyBody ++ (tinyEnv.hmac i.master_key tinyBody).1) payl (fun _ => none)]

/-- After the reply a RESP_AUTH without its proof of possession is injected. -/
def shortEvents : List EstEvent :=
  let payl : ShortDatum := ⟨[], by decide⟩
  [.itorPkt tinyReply payl (fun _ => none), .itorPkt tinyBody payl (fun _ => none)]

end ScnxEst

end Neoip
