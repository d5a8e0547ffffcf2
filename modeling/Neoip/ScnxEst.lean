/-
Neoip/ScnxEst.lean

Establishing a secure connection: the initiator `scnx_itor_t` and the responder
`scnx_resp_t`.

The initiator sends a CNX_REQUEST with its nonce.  The responder, which keeps
nothing of it, replies with a cookie for the nonce and the path, its
certificate and its signed Diffie-Hellman key (CNX_REPLY).  From the nonce, the
cookie and the shared secret the initiator computes the master key, and sends
its own certificate and key with its options (ITOR_AUTH); the responder
computes the master key, chooses the types, and answers with them (RESP_AUTH).
Both of these packets end with a proof of possession, a MAC under the master
key of what has been read before it.

A packet which is too short for a field is refused with BOGUS_PKT, but `tail_peek`,
which reads the MAC at the end, only asserts that there are as many bytes: there
the process is `aborted` (without assertions it reads before the packet).

The certificates, the Diffie-Hellman keys and the MAC are those of a library: a
`ScnxEnv` is what is used of them.  The callbacks of the auxiliary negotiation
come with the packets which they are called for.

`remote_cookie`, `pops` and `cnxs` are not fields of the source: they are the
cookie of the ITOR_AUTH, what the proofs of possession have been made of, and
the connections which have been built.
-/
import Neoip.Cookie
import Neoip.Run
import Neoip.Scnx
import Neoip.SerialCodec

namespace Neoip

/-! ### What is in the packets -/

/-- `skey_auth_type_t`. -/
structure SkeyAuthType where
  algo : UInt8
  mode : UInt8
  output_len : UInt16
  deriving DecidableEq, Repr

/-- `skey_ciph_type_t`. -/
structure SkeyCiphType where
  algo : UInt8
  mode : UInt8
  deriving DecidableEq, Repr

/-- `compare` is 0: all the types which are null are one. -/
def SkeyAuthType.eq (a b : SkeyAuthType) : Bool :=
  if a.algo = 0 ∨ b.algo = 0 then a.algo = 0 ∧ b.algo = 0 else a = b

/-- The same for the types of encryption. -/
def SkeyCiphType.eq (a b : SkeyCiphType) : Bool :=
  if a.algo = 0 ∨ b.algo = 0 then a.algo = 0 ∧ b.algo = 0 else a = b

theorem SkeyAuthType.eq_refl (a : SkeyAuthType) : a.eq a = true := by
  rw [SkeyAuthType.eq]
  split_ifs with h
  · exact decide_eq_true ⟨h.elim id id, h.elim id id⟩
  · exact decide_eq_true rfl

theorem SkeyCiphType.eq_refl (a : SkeyCiphType) : a.eq a = true := by
  rw [SkeyCiphType.eq]
  split_ifs with h
  · exact decide_eq_true ⟨h.elim id id, h.elim id id⟩
  · exact decide_eq_true rfl

/-- `item_arr_t`. -/
abbrev ItemArr (α : Type) := { items : List α // items.length < 2 ^ 32 }

namespace ItemArr

variable {α : Type} (eq : α → α → Bool)

/-- `contain`, by the `compare` of the items. -/
def contain (item : α) (arr : ItemArr α) : Bool := arr.1.any fun item' => eq item' item

/-- `find_first_common`: the first item which the other array contains. -/
def findFirstCommon (other : ItemArr α) (arr : ItemArr α) : Option α :=
  arr.1.find? fun item => contain eq item other

variable {eq} in
theorem contain_of_mem (hrefl : ∀ a, eq a a = true) {item : α} {arr : ItemArr α}
    (h : item ∈ arr.1) : contain eq item arr = true :=
  List.any_eq_true.2 ⟨item, h, hrefl item⟩

end ItemArr

namespace Codec

/-- `scnx_nonceid_t`, without a length. -/
def nonceid : Codec UInt8 Nonceid where
  put nonce := nonce.buffer
  get := Nonceid.read
  get_put := Nonceid.read_append
  suffix h := Nonceid.eq_of_read h ▸ List.suffix_append _ _

/-- `cookie_id_t`, without a length. -/
def cookieId : Codec UInt8 CookieId := fixed 20

/-- `skey_auth_type_t`, field by field. -/
def authType : Codec UInt8 SkeyAuthType := (prod letter (prod letter uint16)).map
  { toFun := fun w => ⟨w.1, w.2.1, w.2.2⟩
    invFun := fun auth_type => (auth_type.algo, auth_type.mode, auth_type.output_len)
    left_inv := fun _ => rfl
    right_inv := fun _ => rfl }

/-- `skey_ciph_type_t`, field by field. -/
def ciphType : Codec UInt8 SkeyCiphType := (prod letter letter).map
  { toFun := fun w => ⟨w.1, w.2⟩
    invFun := fun ciph_type => (ciph_type.algo, ciph_type.mode)
    left_inv := fun _ => rfl
    right_inv := fun _ => rfl }

end Codec

/-! ### The two parties -/

/-- `scnx_err_t`, the values which are returned here; `REFUSED` is what a callback returns.  What
the texts say after "due to" is left out. -/
inductive ScnxEstErr
  | BOGUS_PKT (reason : String)
  | BAD_ITOR_STATE
  | BAD_NONCE
  | BAD_COOKIE
  | BAD_SIGNATURE
  | BAD_POP
  | AUTH_NEGO_FAILED
  | CIPH_NEGO_FAILED
  | REFUSED (reason : String)
  deriving DecidableEq, Repr

/-- How a packet is left unfinished. -/
inductive ScnxEnd
  | returned (err : ScnxEstErr)
  /-- An assertion fails, and with it the process. -/
  | aborted
  deriving DecidableEq, Repr

/-- What is used of the library: certificates, Diffie-Hellman keys, and `sha1/hmac/20`. -/
structure ScnxEnv (Cert Pub Priv : Type) where
  cert : Codec UInt8 Cert
  pub : Codec UInt8 Pub
  get_subject_name : Cert → String
  verify_data : Cert → Datum → Datum → Bool
  get_pubkey : Priv → Pub
  shsecret : Priv → Pub → Datum
  hmac : Datum → Datum → CookieId

/-- `scnx_profile_t`. -/
structure ScnxProfile (Cert : Type) where
  ident_cert : Cert
  /-- `ident_privkey().sign_data` -/
  sign_data : Datum → ShortDatum
  skey_auth_optlist : ItemArr SkeyAuthType
  skey_ciph_optlist : ItemArr SkeyCiphType
  scnx_auth_ftor : Cert → Option ScnxEstErr

/-- `scnx_pkttype_t`. -/
def CNX_REQUEST : UInt8 := 81

def CNX_REPLY : UInt8 := 82

def ITOR_AUTH : UInt8 := 83

def RESP_AUTH : UInt8 := 84

/-- A `scnx_full_t`, as far as its establishment goes. -/
structure EstCnx where
  nonce_i : Nonceid
  cookie_id : CookieId
  master_key : Datum
  chosen_auth_type : SkeyAuthType
  chosen_ciph_type : SkeyCiphType
  remote_idname : String
  deriving DecidableEq

/-- `scnx_itor_t::state_t`. -/
inductive ItorState
  | CNX_REQ_SENT
  | ITOR_AUTH_SENT
  deriving DecidableEq, Repr

/-- `scnx_itor_t`. -/
structure ScnxItor (Priv : Type) where
  reliable_outter_cnx : Bool
  state : ItorState
  nonce_i : Nonceid
  dh_privkey : Priv
  master_key : Datum
  remote_idname : String
  rxmit_pkt : Datum
  rxmit_timeout : Bool
  remote_cookie : CookieId
  pops : List (Datum × Datum)
  cnxs : List EstCnx

/-- `scnx_resp_t`. -/
structure ScnxResp (Priv : Type) where
  dh_privkey : Priv
  cookie : CookieDb
  pops : List (Datum × Datum)
  cnxs : List EstCnx

namespace ScnxEst

variable {Cert Pub Priv : Type} (E : ScnxEnv Cert Pub Priv) (profile : ScnxProfile Cert)

/-- `operator >>`. -/
def read {α : Type} (c : Codec UInt8 α) (pkt : Datum) : Except ScnxEnd (α × Datum) :=
  match c.get pkt with
  | some r => .ok r
  | none => .error (.returned (.BOGUS_PKT "Cant parse packet"))

/-- An error is returned unless `ok` holds. -/
def require (ok : Bool) (err : ScnxEstErr) : Except ScnxEnd Unit :=
  if ok then .ok () else .error (.returned err)

/-- The functor is asked whether the certificate is allowed. -/
def authorize (remote_cert : Cert) : Except ScnxEnd Unit :=
  match profile.scnx_auth_ftor remote_cert with
  | some err => .error (.returned err)
  | none => .ok ()

/-- `tail_consume`, of as many bytes as the MAC has: `tail_peek` asserts that there are. -/
def tailConsume (pkt : Datum) : Except ScnxEnd Datum :=
  if 20 ≤ pkt.length then .ok (pkt.drop (pkt.length - 20)) else .error .aborted

/-- The master key of the nonce, the cookie and the shared secret. -/
def masterKey (nonce_i : Nonceid) (cookie_id : CookieId) (shsecret : Datum) : Datum :=
  (E.hmac (nonce_i.buffer ++ cookie_id.1) shsecret).1

/-- The certificate of a party and its Diffie-Hellman key, with their signature. -/
def signedPayload (dh_privkey : Priv) : Datum :=
  let payload := E.cert.put profile.ident_cert ++ E.pub.put (E.get_pubkey dh_privkey)
  payload ++ Codec.datum.put (profile.sign_data payload)

/-! ### The initiator -/

/-- `build_cnx_request`. -/
def buildCnxRequest (nonce_i : Nonceid) : Datum := CNX_REQUEST :: nonce_i.buffer

/-- An ITOR_AUTH but for its proof of possession. -/
def itorAuthBody (nonce_i : Nonceid) (dh_privkey : Priv) (remote_cookie : CookieId)
    (auxnego_payl : ShortDatum) : Datum :=
  ITOR_AUTH :: (nonce_i.buffer ++ (remote_cookie.1 ++ (signedPayload E profile dh_privkey
    ++ ((Codec.arr .uint32 .authType).put profile.skey_auth_optlist
      ++ ((Codec.arr .uint32 .ciphType).put profile.skey_ciph_optlist
        ++ Codec.datum.put auxnego_payl)))))

/-- `build_itor_auth`. -/
def buildItorAuth (remote_cookie : CookieId) (auxnego_payl : ShortDatum) (i : ScnxItor Priv) :
    ScnxItor Priv :=
  let body := itorAuthBody E profile i.nonce_i i.dh_privkey remote_cookie auxnego_payl
  { i with
    rxmit_pkt := body ++ (E.hmac i.master_key body).1
    remote_cookie := remote_cookie
    pops := (i.master_key, body) :: i.pops }

/-- The initiator once it is started. -/
def itorStart (reliable_outter_cnx : Bool) (nonce_i : Nonceid) (dh_privkey : Priv) :
    ScnxItor Priv where
  reliable_outter_cnx := reliable_outter_cnx
  state := .CNX_REQ_SENT
  nonce_i := nonce_i
  dh_privkey := dh_privkey
  master_key := []
  remote_idname := ""
  rxmit_pkt := buildCnxRequest nonce_i
  rxmit_timeout := true
  remote_cookie := ⟨List.replicate 20 0, length_zeros⟩
  pops := []
  cnxs := []

/-- The timer sends the packet again; when nothing is lost once is enough. -/
def itorTimeout (i : ScnxItor Priv) : ScnxItor Priv :=
  if i.rxmit_timeout then { i with rxmit_timeout := !i.reliable_outter_cnx } else i

/-- A CNX_REPLY, up to the certificate; what follows it is left. -/
def parseCnxReplyCert (nonce_i : Nonceid) (pkt : Datum) :
    Except ScnxEnd (CookieId × Cert × Datum × Datum) := do
  let (_, pkt) ← read .letter pkt
  let (remote_nonce_i, pkt) ← read .nonceid pkt
  let _ ← require (remote_nonce_i = nonce_i) .BAD_NONCE
  let (remote_cookie, pkt) ← read .cookieId pkt
  let (remote_cert, rest) ← read E.cert pkt
  let _ ← authorize profile remote_cert
  .ok (remote_cookie, remote_cert, pkt, rest)

/-- The rest of it, where `cover` is the packet from where the signature covers it. -/
def parseCnxReplyPub (remote_cert : Cert) (cover pkt : Datum) : Except ScnxEnd Pub := do
  let (remote_dh_pubkey, pkt) ← read E.pub pkt
  let sign_cover_data := Codec.taken cover pkt
  let (remote_signature, _) ← read .datum pkt
  let _ ← require (E.verify_data remote_cert sign_cover_data remote_signature.1) .BAD_SIGNATURE
  .ok remote_dh_pubkey

/-- `recv_cnx_reply`, with what the callback of the auxiliary negotiation builds. -/
def recvCnxReply (pkt : Datum) (auxnego_payl : ShortDatum) (i : ScnxItor Priv) :
    Option ScnxEnd × ScnxItor Priv :=
  match parseCnxReplyCert E profile i.nonce_i pkt with
  | .error stop => (some stop, i)
  | .ok (remote_cookie, remote_cert, cover, rest) =>
    let i := { i with remote_idname := E.get_subject_name remote_cert }
    match parseCnxReplyPub E remote_cert cover rest with
    | .error stop => (some stop, i)
    | .ok remote_dh_pubkey =>
      let i := { i with
        master_key := masterKey E i.nonce_i remote_cookie
          (E.shsecret i.dh_privkey remote_dh_pubkey)
        state := .ITOR_AUTH_SENT }
      (none, { buildItorAuth E profile remote_cookie auxnego_payl i with rxmit_timeout := true })

/-- What is read of a RESP_AUTH before its proof of possession: the types, the auxiliary payload,
what the proof covers, and what is left of the packet. -/
structure RespAuthHead where
  chosen_auth_type : SkeyAuthType
  chosen_ciph_type : SkeyCiphType
  auxnego_payl : ShortDatum
  pop_cover_data : Datum
  rest : Datum

/-- All that is read of a RESP_AUTH. -/
structure RespAuth extends RespAuthHead where
  remote_pop : Datum

/-- A RESP_AUTH, up to its proof of possession. -/
def parseRespAuthHead (nonce_i : Nonceid) (pkt : Datum) : Except ScnxEnd RespAuthHead := do
  let orig := pkt
  let (_, pkt) ← read .letter pkt
  let (remote_nonce_i, pkt) ← read .nonceid pkt
  let _ ← require (remote_nonce_i = nonce_i) .BAD_NONCE
  let (chosen_auth_type, pkt) ← read .authType pkt
  let _ ← require (ItemArr.contain SkeyAuthType.eq chosen_auth_type profile.skey_auth_optlist)
    .AUTH_NEGO_FAILED
  let (chosen_ciph_type, pkt) ← read .ciphType pkt
  let _ ← require (ItemArr.contain SkeyCiphType.eq chosen_ciph_type profile.skey_ciph_optlist)
    .CIPH_NEGO_FAILED
  let (auxnego_payl, pkt) ← read .datum pkt
  .ok ⟨chosen_auth_type, chosen_ciph_type, auxnego_payl, Codec.taken orig pkt, pkt⟩

/-- The whole of it. -/
def parseRespAuth (nonce_i : Nonceid) (pkt : Datum) : Except ScnxEnd RespAuth := do
  let head ← parseRespAuthHead profile nonce_i pkt
  let remote_pop ← tailConsume head.rest
  .ok ⟨head, remote_pop⟩

/-- `recv_resp_auth`, with what the callback of the auxiliary negotiation says. -/
def recvRespAuth (pkt : Datum) (auxnego : ShortDatum → Option ScnxEstErr) (i : ScnxItor Priv) :
    Option ScnxEnd × ScnxItor Priv :=
  match parseRespAuth profile i.nonce_i pkt with
  | .error stop => (some stop, i)
  | .ok resp_auth =>
    if (E.hmac i.master_key resp_auth.pop_cover_data).1 ≠ resp_auth.remote_pop then
      (some (.returned .BAD_POP), i)
    else
      let i := { i with rxmit_timeout := false }
      match auxnego resp_auth.auxnego_payl with
      | some err => (some (.returned err), i)
      | none =>
        (none, { i with
          cnxs := ⟨i.nonce_i, i.remote_cookie, i.master_key, resp_auth.chosen_auth_type,
            resp_auth.chosen_ciph_type, i.remote_idname⟩ :: i.cnxs })

/-- `pkt_from_lower` of the initiator. -/
def itorFromLower (pkt : Datum) (auxnego_payl : ShortDatum)
    (auxnego : ShortDatum → Option ScnxEstErr) (i : ScnxItor Priv) :
    Option ScnxEnd × ScnxItor Priv :=
  match pkt with
  | [] => (some (.returned (.BOGUS_PKT "Cant parse packet")), i)
  | pkttype :: _ =>
    if pkttype = CNX_REPLY then
      if i.state ≠ .CNX_REQ_SENT then (some (.returned .BAD_ITOR_STATE), i)
      else recvCnxReply E profile pkt auxnego_payl i
    else if pkttype = RESP_AUTH then
      if i.state ≠ .ITOR_AUTH_SENT then (some (.returned .BAD_ITOR_STATE), i)
      else recvRespAuth E profile pkt auxnego i
    else (some (.returned (.BOGUS_PKT "Unknown packet type")), i)

/-! ### The responder -/

/-- The responder once it is started. -/
def respCtor (secret : Datum) (dh_privkey : Priv) : ScnxResp Priv :=
  ⟨dh_privkey, .ctor secret, [], []⟩

/-- `recv_cnx_request`: what it replies. -/
def recvCnxRequest (pkt cookie_pathid : Datum) (r : ScnxResp Priv) :
    Except ScnxEnd Datum := do
  let (_, pkt) ← read .letter pkt
  let (remote_nonce_i, _) ← read .nonceid pkt
  let cookie_id := r.cookie.generate E.hmac (cookie_pathid ++ remote_nonce_i.buffer)
  .ok (CNX_REPLY :: (remote_nonce_i.buffer ++ (cookie_id.1 ++ signedPayload E profile r.dh_privkey)))

/-- What is read of an ITOR_AUTH before its proof of possession, and what is left of the packet. -/
structure ItorAuthHead (Cert : Type) where
  remote_nonce_i : Nonceid
  remote_cookie : CookieId
  remote_cert : Cert
  remote_auth_optlist : ItemArr SkeyAuthType
  remote_ciph_optlist : ItemArr SkeyCiphType
  auxnego_payl : ShortDatum
  master_key : Datum
  pop_cover_data : Datum
  rest : Datum

/-- All that is read of an ITOR_AUTH. -/
structure ItorAuth (Cert : Type) extends ItorAuthHead Cert where
  remote_pop : Datum

/-- An ITOR_AUTH, up to its proof of possession. -/
def parseItorAuthHead (pkt cookie_pathid : Datum) (r : ScnxResp Priv) :
    Except ScnxEnd (ItorAuthHead Cert) := do
  let orig := pkt
  let (_, pkt) ← read .letter pkt
  let (remote_nonce_i, pkt) ← read .nonceid pkt
  let (remote_cookie, pkt) ← read .cookieId pkt
  let _ ← require (r.cookie.check E.hmac (cookie_pathid ++ remote_nonce_i.buffer) remote_cookie)
    .BAD_COOKIE
  let cover := pkt
  let (remote_cert, pkt) ← read E.cert pkt
  let _ ← authorize profile remote_cert
  let (remote_dh_pubkey, pkt) ← read E.pub pkt
  let sign_cover_data := Codec.taken cover pkt
  let (remote_signature, pkt) ← read .datum pkt
  let _ ← require (E.verify_data remote_cert sign_cover_data remote_signature.1) .BAD_SIGNATURE
  let (remote_auth_optlist, pkt) ← read (.arr .uint32 .authType) pkt
  let (remote_ciph_optlist, pkt) ← read (.arr .uint32 .ciphType) pkt
  let (auxnego_payl, pkt) ← read .datum pkt
  .ok {
    remote_nonce_i, remote_cookie, remote_cert, remote_auth_optlist, remote_ciph_optlist,
    auxnego_payl
    master_key := masterKey E remote_nonce_i remote_cookie
      (E.shsecret r.dh_privkey remote_dh_pubkey)
    pop_cover_data := Codec.taken orig pkt
    rest := pkt }

/-- The whole of it. -/
def parseItorAuth (pkt cookie_pathid : Datum) (r : ScnxResp Priv) :
    Except ScnxEnd (ItorAuth Cert) := do
  let head ← parseItorAuthHead E profile pkt cookie_pathid r
  let remote_pop ← tailConsume head.rest
  .ok ⟨head, remote_pop⟩

/-- A RESP_AUTH but for its proof of possession. -/
def respAuthBody (nonce_i : Nonceid) (chosen_auth_type : SkeyAuthType)
    (chosen_ciph_type : SkeyCiphType) (auxnego_payl : ShortDatum) : Datum :=
  RESP_AUTH :: (nonce_i.buffer ++ (Codec.authType.put chosen_auth_type
    ++ (Codec.ciphType.put chosen_ciph_type ++ Codec.datum.put auxnego_payl)))

/-- The first of the options of the responder which the initiator has too. -/
def choose {α : Type} (eq : α → α → Bool) (other arr : ItemArr α) : Except ScnxEnd α :=
  match ItemArr.findFirstCommon eq other arr with
  | some item => .ok item
  | none => .error (.returned .AUTH_NEGO_FAILED)

/-- `recv_itor_auth`, with what the callback of the auxiliary negotiation replies. -/
def recvItorAuth (pkt cookie_pathid : Datum)
    (auxnego : ShortDatum → Except ScnxEstErr ShortDatum) (r : ScnxResp Priv) :
    Except ScnxEnd (Datum × ScnxResp Priv) := do
  let itor_auth ← parseItorAuth E profile pkt cookie_pathid r
  let _ ← require ((E.hmac itor_auth.master_key itor_auth.pop_cover_data).1 = itor_auth.remote_pop)
    .BAD_POP
  let chosen_auth_type ← choose SkeyAuthType.eq itor_auth.remote_auth_optlist
    profile.skey_auth_optlist
  let chosen_ciph_type ← choose SkeyCiphType.eq itor_auth.remote_ciph_optlist
    profile.skey_ciph_optlist
  let auxnego_payl ← (auxnego itor_auth.auxnego_payl).mapError .returned
  let body := respAuthBody itor_auth.remote_nonce_i chosen_auth_type chosen_ciph_type auxnego_payl
  .ok (body ++ (E.hmac itor_auth.master_key body).1,
    { r with
      cookie := r.cookie.accept E.hmac (cookie_pathid ++ itor_auth.remote_nonce_i.buffer)
        itor_auth.remote_cookie
      pops := (itor_auth.master_key, body) :: r.pops
      cnxs := ⟨itor_auth.remote_nonce_i, itor_auth.remote_cookie, itor_auth.master_key,
        chosen_auth_type, chosen_ciph_type, E.get_subject_name itor_auth.remote_cert⟩ :: r.cnxs })

/-- `pkt_from_lower` of the responder. -/
def respFromLower (pkt cookie_pathid : Datum)
    (auxnego : ShortDatum → Except ScnxEstErr ShortDatum) (r : ScnxResp Priv) :
    Except ScnxEnd (Datum × ScnxResp Priv) :=
  match pkt with
  | [] => .error (.returned (.BOGUS_PKT "Cant parse packet"))
  | pkttype :: _ =>
    if pkttype = CNX_REQUEST then do
      let reply ← recvCnxRequest E profile pkt cookie_pathid r
      .ok (reply, r)
    else if pkttype = ITOR_AUTH then recvItorAuth E profile pkt cookie_pathid auxnego r
    else .error (.returned (.BOGUS_PKT "Unknown packet type"))

end ScnxEst

end Neoip
