/-
Neoip/Jamstd.lean

The standard stream encryption: `bt_jamstd_itor_t`, `bt_jamstd_resp_t` and
`bt_jamstd_full_t`.

Both sides send their public keys, with a padding behind.  The initiator then sends two
hashes of the secret, by which the responder finds the end of the padding, and under the
cipher of its direction a constant, what it allows, and a second padding; the responder
answers with the constant, what it selected, and a padding of its own, under the cipher
of the other direction.  The initiator finds the answer by the constant as it is under
that cipher.  Depending on what was selected the data are enciphered from there on, or
plain.

The padding, the private keys, the hash and the keystream of the cipher are parameters.
An assertion which fails is `aborted`.

The main results are in `JamstdRun`.
-/
import Mathlib.Data.Nat.Digits.Lemmas
import Mathlib.Data.UInt
import Neoip.GenId
import Neoip.Jamrc4
import Neoip.Memmem

namespace Neoip.Jamstd

open Jamrc4 (Crypto SkeyCiph)

/-! ### `bt_jamstd_negoflag_t` and `bt_jamstd_profile_t` -/

/-- `bt_jamstd_negoflag_t::PLAINTEXT`. -/
def negoflagPlaintext : UInt32 := 1

/-- `bt_jamstd_negoflag_t::ARCFOUR`. -/
def negoflagArcfour : UInt32 := 2

/-- `bt_jamstd_profile_t`, with the group and the generator as numbers. -/
structure Profile where
  dh_pubkey_len : ℕ
  dh_group : ℕ
  dh_generator : ℕ
  verif_cst : Datum
  negoflag_allowed : UInt32

/-- A side: its profile, the secret of the connection, and what it drew. -/
structure Local where
  profile : Profile
  cnx_shsecret : BtId
  dh_privkey : ℕ
  padesta : Datum
  padauth_len : ℕ

/-! ### Numbers and Diffie-Hellman keys -/

/-- `GCRYMPI_FMT_USG`: the bytes of a number, the highest first and not zero. -/
def usg (n : ℕ) : Datum := ((Nat.digits 256 n).map UInt8.ofNat).reverse

/-- The number which is read from them. -/
def ofUsg (data : Datum) : ℕ := Nat.ofDigits 256 (data.reverse.map UInt8.toNat)

theorem ofUsg_usg (n : ℕ) : ofUsg (usg n) = n := by
  have hmap : ((Nat.digits 256 n).map UInt8.ofNat).map UInt8.toNat = Nat.digits 256 n := by
    rw [List.map_map]
    refine (List.map_congr_left fun d hd => ?_).trans (List.map_id _)
    show (UInt8.ofNat d).toNat = d
    rw [UInt8.toNat_ofNat', Nat.mod_eq_of_lt (Nat.digits_lt_base (by decide) hd)]
  rw [ofUsg, usg, List.reverse_reverse, hmap, Nat.ofDigits_digits]

namespace Local

/-- `dh_privkey_t::get_pubkey`. -/
def dhPubkey (own : Local) : ℕ :=
  own.profile.dh_generator ^ own.dh_privkey % own.profile.dh_group

/-- `dh_shsecret_t`, of the private key and the public key of the other side. -/
def dhShsecret (own : Local) (pubkey : ℕ) : Datum :=
  usg (pubkey ^ own.dh_privkey % own.profile.dh_group)

/-- Both sides come to the same secret. -/
theorem dhShsecret_comm {own other : Local} (hgroup : own.profile.dh_group = other.profile.dh_group)
    (hgenerator : own.profile.dh_generator = other.profile.dh_generator) :
    own.dhShsecret other.dhPubkey = other.dhShsecret own.dhPubkey := by
  rw [dhShsecret, dhShsecret, dhPubkey, dhPubkey, hgroup, hgenerator, ← Nat.pow_mod,
    ← Nat.pow_mod, ← Nat.pow_mul, ← Nat.pow_mul, Nat.mul_comm]

end Local

/-! ### Keys, hashes and packets -/

variable (crypto : Crypto)

/-- `keyA`. -/
def labelKeyA : Datum := [107, 101, 121, 65]

/-- `keyB`. -/
def labelKeyB : Datum := [107, 101, 121, 66]

/-- `req1`, `req2` and `req3`. -/
def labelReq (n : UInt8) : Datum := [114, 101, 113, 48 + n]

/-- The hash of a datum, as a datum. -/
def hash (datum : Datum) : Datum := (BtId.ofDatum crypto.sha1 datum).1

/-- The cipher of a direction; the first 1024 bytes are discarded. -/
def initCiph (label dh_shsecret : Datum) (cnx_shsecret : BtId) : SkeyCiph :=
  (SkeyCiph.encipher crypto ⟨hash crypto (label ++ (dh_shsecret ++ cnx_shsecret.1)), 0⟩
    (List.replicate 1024 0)).2

/-- `HASH('req1', dh_shsecret)` and `HASH('req2', cnx_shsecret) xor HASH('req3', dh_shsecret)`. -/
def hashReqs (dh_shsecret : Datum) (cnx_shsecret : BtId) : Datum :=
  hash crypto (labelReq 1 ++ dh_shsecret) ++
    List.zipWith (· ^^^ ·) (hash crypto (labelReq 2 ++ cnx_shsecret.1))
      (hash crypto (labelReq 3 ++ dh_shsecret))

/-- `build_cnxesta_pkt`, which both sides have: it asserts the length of the public key. -/
def buildCnxestaPkt (own : Local) : Option Datum :=
  if (usg own.dhPubkey).length = own.profile.dh_pubkey_len then
    some (usg own.dhPubkey ++ own.padesta)
  else none

/-- The constant, the flags and the padding: what both CNXAUTH packets encipher. -/
def cnxauthClear (own : Local) (negoflag : UInt32) : Datum :=
  own.profile.verif_cst ++ (GenId.bytesOf 4 negoflag.toNat ++
    (GenId.bytesOf 2 own.padauth_len ++ List.replicate own.padauth_len 0x99))

/-- What `pkt_ciph` begins with: the flags, and the length of the padding. -/
def readNego (pkt_ciph : Datum) : UInt32 × ℕ :=
  (UInt32.ofNat (GenId.ofBytes (pkt_ciph.take 4)), GenId.ofBytes ((pkt_ciph.drop 4).take 2))

/-! ### `bt_jamstd_full_t` -/

/-- `bt_jamstd_full_t`, which is written as `bt_jamrc4_full_t` is. -/
abbrev Full := Jamrc4.Full

/-- The end of both handshakes, with what is left in `m_recv_buffer`: under `ARCFOUR` it is
deciphered, and the ciphers are kept.  Before it comes `initpkt`, in clear. -/
def establish (negoflag_selected : UInt32) (xmit_ciph recv_ciph : SkeyCiph)
    (initpkt recv_buffer : Datum) : Option Full :=
  if negoflag_selected = negoflagArcfour then
    let (recv_buffer, recv_ciph) := recv_ciph.decipher crypto recv_buffer
    some ⟨initpkt ++ recv_buffer, some (xmit_ciph, recv_ciph)⟩
  else if negoflag_selected = negoflagPlaintext then some ⟨initpkt ++ recv_buffer, none⟩
  else none

/-! ### `bt_jamstd_itor_t` -/

/-- An initiator in a state, with what it has there; one which made a `bt_jamstd_full_t`; one
after an error; one after an assertion. -/
inductive Itor where
  | cnxestaWait (recv_buffer : Datum)
  | cnxauthWait (recv_buffer : Datum) (xmit_ciph recv_ciph : SkeyCiph) (cnxauth_mark : Datum)
  | padauthWait (recv_buffer : Datum) (xmit_ciph recv_ciph : SkeyCiph)
      (negoflag_selected : UInt32) (cnxauth_padlen : ℕ)
  | full (f : Full)
  | failed
  | aborted
deriving DecidableEq, Repr

namespace Itor

variable (own : Local)

/-- `build_cnxauth_pkt`: the initial payload is of length 0. -/
def buildCnxauthPkt (dh_shsecret : Datum) (xmit_ciph : SkeyCiph) : Datum × SkeyCiph :=
  let (pkt_ciph, xmit_ciph) := xmit_ciph.encipher crypto
    (cnxauthClear own own.profile.negoflag_allowed ++ GenId.bytesOf 2 0)
  (hashReqs crypto dh_shsecret own.cnx_shsecret ++ pkt_ciph, xmit_ciph)

/-- A turn of the loop of `notify_recved_data`: the state, what goes to `m_xmit_buffer`, and
`stop_parsing`. -/
def parse : Itor → Itor × Datum × Bool
  -- parse_in_cnxesta_wait
  | .cnxestaWait recv_buffer =>
    if recv_buffer.length < own.profile.dh_pubkey_len then (.cnxestaWait recv_buffer, [], true)
    else
      let resp_dh_pubkey := ofUsg (recv_buffer.take own.profile.dh_pubkey_len)
      let dh_shsecret := own.dhShsecret resp_dh_pubkey
      let xmit_ciph := initCiph crypto labelKeyA dh_shsecret own.cnx_shsecret
      let recv_ciph := initCiph crypto labelKeyB dh_shsecret own.cnx_shsecret
      let (cnxauth_mark, recv_ciph) := recv_ciph.encipher crypto own.profile.verif_cst
      let (cnxauth_pkt, xmit_ciph) := buildCnxauthPkt crypto own dh_shsecret xmit_ciph
      (.cnxauthWait (recv_buffer.drop own.profile.dh_pubkey_len) xmit_ciph recv_ciph cnxauth_mark,
        cnxauth_pkt, false)
  -- parse_in_cnxauth_wait
  | .cnxauthWait recv_buffer xmit_ciph recv_ciph cnxauth_mark =>
    match memmem cnxauth_mark recv_buffer with
    | none => (.cnxauthWait recv_buffer xmit_ciph recv_ciph cnxauth_mark, [], true)
    | some cnxesta_padlen =>
      if recv_buffer.length < cnxesta_padlen + (own.profile.verif_cst.length + 6) then
        (.cnxauthWait recv_buffer xmit_ciph recv_ciph cnxauth_mark, [], true)
      else
        let recv_buffer := (recv_buffer.drop cnxesta_padlen).drop cnxauth_mark.length
        let (pkt_ciph, recv_ciph) := recv_ciph.decipher crypto (recv_buffer.take 6)
        let (negoflag_selected, cnxauth_padlen) := readNego pkt_ciph
        if own.profile.negoflag_allowed &&& negoflag_selected ≠ negoflag_selected then
          (.failed, [], true)
        else
          (.padauthWait (recv_buffer.drop 6) xmit_ciph recv_ciph negoflag_selected cnxauth_padlen,
            [], false)
  -- parse_in_padauth_wait
  | .padauthWait recv_buffer xmit_ciph recv_ciph negoflag_selected cnxauth_padlen =>
    if recv_buffer.length < cnxauth_padlen then
      (.padauthWait recv_buffer xmit_ciph recv_ciph negoflag_selected cnxauth_padlen, [], true)
    else
      let (_, recv_ciph) := recv_ciph.decipher crypto (recv_buffer.take cnxauth_padlen)
      match establish crypto negoflag_selected xmit_ciph recv_ciph []
          (recv_buffer.drop cnxauth_padlen) with
      | some f => (.full f, [], true)
      | none => (.aborted, [], true)
  | s => (s, [], true)

/-- The loop, for `n` turns. -/
def loop : ℕ → Itor → Itor × Datum
  | 0, s => (s, [])
  | n + 1, s =>
    let (s, xmit_buffer, stop_parsing) := s.parse crypto own
    if stop_parsing then (s, xmit_buffer)
    else
      let (s, rest) := loop n s
      (s, xmit_buffer ++ rest)

/-- `m_recv_buffer.append`. -/
def append (recved_pkt : Datum) : Itor → Itor
  | .cnxestaWait recv_buffer => .cnxestaWait (recv_buffer ++ recved_pkt)
  | .cnxauthWait recv_buffer xmit_ciph recv_ciph cnxauth_mark =>
    .cnxauthWait (recv_buffer ++ recved_pkt) xmit_ciph recv_ciph cnxauth_mark
  | .padauthWait recv_buffer xmit_ciph recv_ciph negoflag_selected cnxauth_padlen =>
    .padauthWait (recv_buffer ++ recved_pkt) xmit_ciph recv_ciph negoflag_selected cnxauth_padlen
  | s => s

/-- `notify_recved_data`; each turn but the last one enters another state, and there are three. -/
def notifyRecvedData (s : Itor) (recved_pkt : Datum) : Itor × Datum :=
  loop crypto own 3 (s.append recved_pkt)

/-- How many bytes came along with the end of the handshake. -/
def early : Itor → ℕ
  | .full f => f.init_recvbuf.length
  | _ => 0

end Itor

/-! ### `bt_jamstd_resp_t` -/

/-- A responder, as an initiator is. -/
inductive Resp where
  | cnxestaWait (recv_buffer : Datum)
  | cnxauthWait (recv_buffer : Datum) (xmit_ciph recv_ciph : SkeyCiph) (cnxauth_mark : Datum)
  | padauthWait (recv_buffer : Datum) (xmit_ciph recv_ciph : SkeyCiph)
      (negoflag_selected : UInt32) (cnxauth_padlen : ℕ)
  | initpktWait (recv_buffer : Datum) (xmit_ciph recv_ciph : SkeyCiph)
      (negoflag_selected : UInt32) (initpkt_totlen : ℕ)
  | full (f : Full)
  | failed
  | aborted
deriving DecidableEq, Repr

/-- The first bytes of the protocol in clear. -/
def plainbtSignature : Datum :=
  [0x13, 66, 105, 116, 84, 111, 114, 114, 101, 110, 116, 32, 112, 114, 111, 116, 111, 99, 111, 108]

/-- What the responder selects among the flags. -/
def select (negoflag_common : UInt32) : Option UInt32 :=
  if negoflag_common &&& negoflagArcfour ≠ 0 then some negoflagArcfour
  else if negoflag_common &&& negoflagPlaintext ≠ 0 then some negoflagPlaintext
  else none

namespace Resp

variable (own : Local)

/-- `build_cnxauth_pkt`. -/
def buildCnxauthPkt (negoflag_selected : UInt32) (xmit_ciph : SkeyCiph) : Datum × SkeyCiph :=
  xmit_ciph.encipher crypto (cnxauthClear own negoflag_selected)

/-- A turn of the loop of `notify_recved_data`. -/
def parse : Resp → Resp × Datum × Bool
  -- parse_in_cnxesta_wait
  | .cnxestaWait recv_buffer =>
    if plainbtSignature <+: recv_buffer then (.failed, [], true)
    else if recv_buffer.length < own.profile.dh_pubkey_len then
      (.cnxestaWait recv_buffer, [], true)
    else
      let itor_dh_pubkey := ofUsg (recv_buffer.take own.profile.dh_pubkey_len)
      let dh_shsecret := own.dhShsecret itor_dh_pubkey
      (.cnxauthWait (recv_buffer.drop own.profile.dh_pubkey_len)
        (initCiph crypto labelKeyB dh_shsecret own.cnx_shsecret)
        (initCiph crypto labelKeyA dh_shsecret own.cnx_shsecret)
        (hashReqs crypto dh_shsecret own.cnx_shsecret), [], false)
  -- parse_in_cnxauth_wait
  | .cnxauthWait recv_buffer xmit_ciph recv_ciph cnxauth_mark =>
    match memmem cnxauth_mark recv_buffer with
    | none => (.cnxauthWait recv_buffer xmit_ciph recv_ciph cnxauth_mark, [], true)
    | some cnxesta_padlen =>
      if recv_buffer.length < cnxesta_padlen + (20 + 20 + own.profile.verif_cst.length + 6) then
        (.cnxauthWait recv_buffer xmit_ciph recv_ciph cnxauth_mark, [], true)
      else
        let recv_buffer := (recv_buffer.drop cnxesta_padlen).drop cnxauth_mark.length
        let (pkt_ciph, recv_ciph) :=
          recv_ciph.decipher crypto (recv_buffer.take (own.profile.verif_cst.length + 6))
        if pkt_ciph.take own.profile.verif_cst.length ≠ own.profile.verif_cst then
          (.failed, [], true)
        else
          let (negoflag_proposed, cnxauth_padlen) :=
            readNego (pkt_ciph.drop own.profile.verif_cst.length)
          match select (negoflag_proposed &&& own.profile.negoflag_allowed) with
          | none => (.failed, [], true)
          | some negoflag_selected =>
            let (cnxauth_pkt, xmit_ciph) := buildCnxauthPkt crypto own negoflag_selected xmit_ciph
            (.padauthWait (recv_buffer.drop (own.profile.verif_cst.length + 6)) xmit_ciph recv_ciph
              negoflag_selected cnxauth_padlen, cnxauth_pkt, false)
  -- parse_in_padauth_wait
  | .padauthWait recv_buffer xmit_ciph recv_ciph negoflag_selected cnxauth_padlen =>
    if recv_buffer.length < cnxauth_padlen + 2 then
      (.padauthWait recv_buffer xmit_ciph recv_ciph negoflag_selected cnxauth_padlen, [], true)
    else
      let (pkt_ciph, recv_ciph) := recv_ciph.decipher crypto (recv_buffer.take (cnxauth_padlen + 2))
      (.initpktWait (recv_buffer.drop (cnxauth_padlen + 2)) xmit_ciph recv_ciph negoflag_selected
        (GenId.ofBytes ((pkt_ciph.drop cnxauth_padlen).take 2)), [], false)
  -- parse_in_initpkt_wait
  | .initpktWait recv_buffer xmit_ciph recv_ciph negoflag_selected initpkt_totlen =>
    if recv_buffer.length < initpkt_totlen then
      (.initpktWait recv_buffer xmit_ciph recv_ciph negoflag_selected initpkt_totlen, [], true)
    else
      let (initpkt, recv_ciph) := recv_ciph.decipher crypto (recv_buffer.take initpkt_totlen)
      match establish crypto negoflag_selected xmit_ciph recv_ciph initpkt
          (recv_buffer.drop initpkt_totlen) with
      | some f => (.full f, [], true)
      | none => (.aborted, [], true)
  | s => (s, [], true)

/-- The loop, for `n` turns. -/
def loop : ℕ → Resp → Resp × Datum
  | 0, s => (s, [])
  | n + 1, s =>
    let (s, xmit_buffer, stop_parsing) := s.parse crypto own
    if stop_parsing then (s, xmit_buffer)
    else
      let (s, rest) := loop n s
      (s, xmit_buffer ++ rest)

/-- `m_recv_buffer.append`. -/
def append (recved_pkt : Datum) : Resp → Resp
  | .cnxestaWait recv_buffer => .cnxestaWait (recv_buffer ++ recved_pkt)
  | .cnxauthWait recv_buffer xmit_ciph recv_ciph cnxauth_mark =>
    .cnxauthWait (recv_buffer ++ recved_pkt) xmit_ciph recv_ciph cnxauth_mark
  | .padauthWait recv_buffer xmit_ciph recv_ciph negoflag_selected cnxauth_padlen =>
    .padauthWait (recv_buffer ++ recved_pkt) xmit_ciph recv_ciph negoflag_selected cnxauth_padlen
  | .initpktWait recv_buffer xmit_ciph recv_ciph negoflag_selected initpkt_totlen =>
    .initpktWait (recv_buffer ++ recved_pkt) xmit_ciph recv_ciph negoflag_selected initpkt_totlen
  | s => s

/-- `notify_recved_data`; there are four states. -/
def notifyRecvedData (s : Resp) (recved_pkt : Datum) : Resp × Datum :=
  loop crypto own 4 (s.append recved_pkt)

/-- How many bytes came along with the end of the handshake. -/
def early : Resp → ℕ
  | .full f => f.init_recvbuf.length
  | _ => 0

end Resp

/-! ### The two sides -/

/-- What the sides are started with: the same secret, and profiles which differ in the flags at
most; the public keys and the paddings they drew. -/
structure Cfg where
  profile : Profile
  itor_allowed : UInt32
  resp_allowed : UInt32
  cnx_shsecret : BtId
  itor_privkey : ℕ
  resp_privkey : ℕ
  itor_padesta : Datum
  resp_padesta : Datum
  itor_padauth_len : ℕ
  resp_padauth_len : ℕ

namespace Cfg

variable (cfg : Cfg)

def itor : Local where
  profile := { cfg.profile with negoflag_allowed := cfg.itor_allowed }
  cnx_shsecret := cfg.cnx_shsecret
  dh_privkey := cfg.itor_privkey
  padesta := cfg.itor_padesta
  padauth_len := cfg.itor_padauth_len

def resp : Local where
  profile := { cfg.profile with negoflag_allowed := cfg.resp_allowed }
  cnx_shsecret := cfg.cnx_shsecret
  dh_privkey := cfg.resp_privkey
  padesta := cfg.resp_padesta
  padauth_len := cfg.resp_padauth_len

end Cfg

/-- The two sides, the bytes under way, what each side was given to send and has handed up, and
how many bytes of data came along with the end of its handshake. -/
structure Pair where
  itor : Itor
  resp : Resp
  i2r : Datum
  r2i : Datum
  itorSent : Datum
  respSent : Datum
  itorGot : Datum
  respGot : Datum
  itorEarly : ℕ
  respEarly : ℕ
deriving DecidableEq, Repr

/-- Some bytes under way arrive, or a side with a connection sends data. -/
inductive Event where
  | itorRecv (len : ℕ)
  | respRecv (len : ℕ)
  | itorSend (data : Datum)
  | respSend (data : Datum)
deriving DecidableEq, Repr

variable (cfg : Cfg)

/-- Both sides after `start`. -/
def start : Option Pair := do
  let i2r ← buildCnxestaPkt cfg.itor
  let r2i ← buildCnxestaPkt cfg.resp
  some ⟨.cnxestaWait [], .cnxestaWait [], i2r, r2i, [], [], [], [], 0, 0⟩

/-- A side after an error is not given anything any more. -/
def step (s : Pair) : Event → Pair
  | .itorRecv len =>
    let pkt := s.r2i.take len
    match s.itor with
    | .failed | .aborted => s
    | .full f =>
      let (pkt_out, f) := f.notifyRecvedData crypto pkt
      { s with itor := .full f, r2i := s.r2i.drop len, itorGot := s.itorGot ++ pkt_out }
    | itor =>
      let (itor, xmit_buffer) := itor.notifyRecvedData crypto cfg.itor pkt
      { s with
        itor := itor
        r2i := s.r2i.drop len
        i2r := s.i2r ++ xmit_buffer
        itorEarly := itor.early }
  | .respRecv len =>
    let pkt := s.i2r.take len
    match s.resp with
    | .failed | .aborted => s
    | .full f =>
      let (pkt_out, f) := f.notifyRecvedData crypto pkt
      { s with resp := .full f, i2r := s.i2r.drop len, respGot := s.respGot ++ pkt_out }
    | resp =>
      let (resp, xmit_buffer) := resp.notifyRecvedData crypto cfg.resp pkt
      { s with
        resp := resp
        i2r := s.i2r.drop len
        r2i := s.r2i ++ xmit_buffer
        respEarly := resp.early }
  | .itorSend data =>
    match s.itor with
    | .full f =>
      let (pkt_out, f) := f.notifyToxmitData crypto data
      { s with itor := .full f, i2r := s.i2r ++ pkt_out, itorSent := s.itorSent ++ data }
    | _ => s
  | .respSend data =>
    match s.resp with
    | .full f =>
      let (pkt_out, f) := f.notifyToxmitData crypto data
      { s with resp := .full f, r2i := s.r2i ++ pkt_out, respSent := s.respSent ++ data }
    | _ => s

end Neoip.Jamstd
