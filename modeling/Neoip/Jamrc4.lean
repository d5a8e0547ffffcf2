/-
Neoip/Jamrc4.lean

The stream layer which conceals the protocol: `bt_jamrc4_itor_t`,
`bt_jamrc4_resp_t` and `bt_jamrc4_full_t`.

A `DOJAM` initiator sends a header, a nonce followed by its check; the responder
answers with its own header, and from then on each direction is enciphered under a
key made of the two nonces.  A `NOJAM` initiator sends its data as they are.  What
came behind the header stays in the initial receive buffer of the connection until
the next data.

The check is `bt_id_t(nonce.to_datum())`.  As `bt_id_t` keeps a datum of its own
length, the check is the nonce again and not a hash of it.

A responder which does not accept `DOJAM` builds a plain connection on the first
data whatever they are, and does not look whether it accepts `NOJAM`.

The hash and the keystream of the cipher are parameters.

Main result: `Jamrc4.always_jamOk_iff`, in which runs of a pair the layer does what
its description says.
-/
import Mathlib.Tactic.Common
import Neoip.Keystream
import Neoip.Metainfo
import Neoip.Run

namespace Neoip.Jamrc4

/-- `bt_jamrc4_type_t`. -/
inductive JamType where
  | nojam
  | dojam
deriving DecidableEq, Repr

/-- The hash of `bt_id_t`, and the keystream of `arcfour/stream` under a key. -/
structure Crypto where
  sha1 : Datum → BtId
  keystream : Datum → ℕ → UInt8

variable (crypto : Crypto)

/-! ### `skey_ciph_t` and `bt_jamrc4_helper_t` -/

/-- `skey_ciph_t` keyed for `arcfour/stream`, and how far it went. -/
structure SkeyCiph where
  key : Datum
  pos : ℕ
deriving DecidableEq, Repr

namespace SkeyCiph

def encipher (ciph : SkeyCiph) (data : Datum) : Datum × SkeyCiph :=
  (crypt (· ^^^ ·) (crypto.keystream ciph.key) ciph.pos data,
    { ciph with pos := ciph.pos + data.length })

def decipher (ciph : SkeyCiph) (data : Datum) : Datum × SkeyCiph :=
  (crypt (· ^^^ ·) (crypto.keystream ciph.key) ciph.pos data,
    { ciph with pos := ciph.pos + data.length })

end SkeyCiph

/-- `i2r`. -/
def labelI2r : Datum := [105, 50, 114]

/-- `r2i`. -/
def labelR2i : Datum := [114, 50, 105]

/-- The key of a direction: its label and the two nonces. -/
def keyOf (label itor_nonce resp_nonce : Datum) : Datum :=
  (BtId.ofDatum crypto.sha1 (label ++ (itor_nonce ++ resp_nonce))).1

/-- `build_xmit_ciph`: the first 1024 bytes are discarded. -/
def buildXmitCiph (itor_nonce resp_nonce : Datum) (is_itor : Bool) : SkeyCiph :=
  let xmit_key := keyOf crypto (if is_itor then labelI2r else labelR2i) itor_nonce resp_nonce
  (SkeyCiph.encipher crypto ⟨xmit_key, 0⟩ (List.replicate 1024 0)).2

/-- `build_recv_ciph`. -/
def buildRecvCiph (itor_nonce resp_nonce : Datum) (is_itor : Bool) : SkeyCiph :=
  let recv_key := keyOf crypto (if is_itor then labelR2i else labelI2r) itor_nonce resp_nonce
  (SkeyCiph.encipher crypto ⟨recv_key, 0⟩ (List.replicate 1024 0)).2

/-! ### `bt_jamrc4_full_t` -/

/-- `bt_jamrc4_full_t`: `ciph` is `m_xmit_ciph` and `m_recv_ciph`, which are both null
or both not. -/
structure Full where
  init_recvbuf : Datum
  ciph : Option (SkeyCiph × SkeyCiph)
deriving DecidableEq, Repr

namespace Full

/-- The received data go through the cipher to transmit. -/
def notifyRecvedData (f : Full) (pkt_inp : Datum) : Datum × Full :=
  let pkt_out := if f.init_recvbuf = [] then pkt_inp else f.init_recvbuf ++ pkt_inp
  match f.ciph with
  | none => (pkt_out, ⟨[], none⟩)
  | some (xmit_ciph, recv_ciph) =>
    let (pkt_out, xmit_ciph) := xmit_ciph.encipher crypto pkt_out
    (pkt_out, ⟨[], some (xmit_ciph, recv_ciph)⟩)

/-- The data to transmit go through the cipher to receive. -/
def notifyToxmitData (f : Full) (pkt_inp : Datum) : Datum × Full :=
  match f.ciph with
  | none => (pkt_inp, f)
  | some (xmit_ciph, recv_ciph) =>
    let (pkt_out, recv_ciph) := recv_ciph.decipher crypto pkt_inp
    (pkt_out, { f with ciph := some (xmit_ciph, recv_ciph) })

end Full

/-! ### `bt_jamrc4_itor_t` and `bt_jamrc4_resp_t` -/

/-- One side of the connection: still establishing it with `m_recv_buffer`, with a
connection, or after an error. -/
inductive Side where
  | waiting (recv_buffer : Datum)
  | full (f : Full)
  | error
deriving DecidableEq, Repr

/-- The check of a nonce. -/
def checkOf (nonce : Datum) : Datum := (BtId.ofDatum crypto.sha1 nonce).1

/-- A nonce and its check. -/
def header (nonce : BtId) : Datum := nonce.1 ++ checkOf crypto nonce.1

/-- The nonce at the head of a buffer. -/
def nonceOf (buffer : Datum) : Datum := buffer.take 20

/-- Whether what follows the nonce is its check. -/
def isCheckValid (buffer : Datum) : Bool :=
  (buffer.drop 20).take 20 = checkOf crypto (nonceOf buffer)

/-- `bt_jamrc4_resp_t::notify_recved_data`, with what it puts in `m_xmit_buffer`. -/
def respRecved (accept : List JamType) (resp_nonce : BtId) (recv_buffer recved_pkt : Datum) :
    Side × Datum :=
  let recv_buffer := recv_buffer ++ recved_pkt
  if JamType.dojam ∈ accept then
    if recv_buffer.length < 2 * 20 then (.waiting recv_buffer, [])
    else if ¬isCheckValid crypto recv_buffer ∧ JamType.nojam ∉ accept then (.error, [])
    else if isCheckValid crypto recv_buffer then
      (.full ⟨recv_buffer.drop 40, some
        (buildXmitCiph crypto (nonceOf recv_buffer) resp_nonce.1 false,
          buildRecvCiph crypto (nonceOf recv_buffer) resp_nonce.1 false)⟩,
        header crypto resp_nonce)
    else (.full ⟨recv_buffer, none⟩, [])
  else (.full ⟨recv_buffer, none⟩, [])

/-- `bt_jamrc4_itor_t::start`: what is in `m_xmit_buffer`. -/
def itorStart (itor_type : JamType) (itor_nonce : BtId) : Datum :=
  match itor_type with
  | .dojam => header crypto itor_nonce
  | .nojam => []

/-- `bt_jamrc4_itor_t::notify_recved_data`. -/
def itorRecved (itor_type : JamType) (itor_nonce : BtId) (recv_buffer recved_pkt : Datum) : Side :=
  let recv_buffer := recv_buffer ++ recved_pkt
  match itor_type with
  | .dojam =>
    if recv_buffer.length < 2 * 20 then .waiting recv_buffer
    else if isCheckValid crypto recv_buffer then
      .full ⟨recv_buffer.drop 40, some
        (buildXmitCiph crypto itor_nonce.1 (nonceOf recv_buffer) true,
          buildRecvCiph crypto itor_nonce.1 (nonceOf recv_buffer) true)⟩
    else .error
  | .nojam => .full ⟨recv_buffer, none⟩

/-! ### The two sides -/

/-- The type of the initiator, what the responder accepts, and the nonces. -/
structure Cfg where
  itor_type : JamType
  accept : List JamType
  itor_nonce : BtId
  resp_nonce : BtId

/-- The two sides, the bytes under way, and what each side was given to send and has
handed up. -/
structure Pair where
  itor : Side
  resp : Side
  i2r : Datum
  r2i : Datum
  itorSent : Datum
  respSent : Datum
  itorGot : Datum
  respGot : Datum
deriving DecidableEq, Repr

/-- Some bytes under way arrive, or a side with a connection sends data.  The caller
starts the initiator with no byte. -/
inductive Event where
  | itorRecv (len : ℕ)
  | respRecv (len : ℕ)
  | itorSend (data : Datum)
  | respSend (data : Datum)
deriving DecidableEq, Repr

variable (cfg : Cfg)

def start : Pair where
  itor := .waiting []
  resp := .waiting []
  i2r := itorStart crypto cfg.itor_type cfg.itor_nonce
  r2i := []
  itorSent := []
  respSent := []
  itorGot := []
  respGot := []

def step (s : Pair) : Event → Pair
  | .itorRecv len =>
    let pkt := s.r2i.take len
    match s.itor with
    | .waiting recv_buffer =>
      { s with
        itor := itorRecved crypto cfg.itor_type cfg.itor_nonce recv_buffer pkt
        r2i := s.r2i.drop len }
    | .full f =>
      let (pkt_out, f) := f.notifyRecvedData crypto pkt
      { s with itor := .full f, r2i := s.r2i.drop len, itorGot := s.itorGot ++ pkt_out }
    | .error => s
  | .respRecv len =>
    let pkt := s.i2r.take len
    match s.resp with
    | .waiting recv_buffer =>
      let (resp, xmit_buffer) := respRecved crypto cfg.accept cfg.resp_nonce recv_buffer pkt
      { s with resp := resp, i2r := s.i2r.drop len, r2i := s.r2i ++ xmit_buffer }
    | .full f =>
      let (pkt_out, f) := f.notifyRecvedData crypto pkt
      { s with resp := .full f, i2r := s.i2r.drop len, respGot := s.respGot ++ pkt_out }
    | .error => s
  | .itorSend data =>
    match s.itor with
    | .full f =>
      let (pkt_out, f) := f.notifyToxmitData crypto data
      { s with itor := .full f, i2r := s.i2r ++ pkt_out, itorSent := s.itorSent ++ data }
    | _ => s
  | .respSend data =>
    match s.resp with
    | .full f =>
      let (pkt_out, f) := f.notifyToxmitData crypto data
      { s with resp := .full f, r2i := s.r2i ++ pkt_out, respSent := s.respSent ++ data }
    | _ => s

/-! ### What is expected of it -/

/-- The stream starts with a valid header. -/
def startsWithHeader (stream : Datum) : Bool := 40 ≤ stream.length ∧ isCheckValid crypto stream

/-- Of two sides which conceal: neither fails, each builds a connection once the
header of the other has arrived, and what a side has handed up, with what it would
of the bytes it holds and of those under way, is what the other sent. -/
structure DojamOk (s : Pair) : Prop where
  noError : s.itor ≠ .error ∧ s.resp ≠ .error
  respBuilt : s.i2r = [] → ∃ f, s.resp = .full f
  itorBuilt : ∀ f, s.resp = .full f → s.r2i = [] → ∃ f, s.itor = .full f
  itorToResp : ∀ f, s.resp = .full f →
    s.respGot ++ (f.notifyRecvedData crypto s.i2r).1 = s.itorSent
  respToItor : ∀ f, s.itor = .full f →
    s.itorGot ++ (f.notifyRecvedData crypto s.r2i).1 = s.respSent

/-- The bytes which a side holds. -/
def Side.held : Side → Datum
  | .waiting recv_buffer => recv_buffer
  | .full f => f.init_recvbuf
  | .error => []

/-- Of two sides which do not conceal: neither fails, the responder waits no longer
than for a header, the bytes are handed up unchanged, and there is nothing else on
the way to the initiator. -/
structure NojamOk (s : Pair) : Prop where
  noError : s.itor ≠ .error ∧ s.resp ≠ .error
  respBuilt : ∀ recv_buffer, s.resp = .waiting recv_buffer →
    if JamType.dojam ∈ cfg.accept then recv_buffer.length < 40 else recv_buffer = []
  itorToResp : s.respGot ++ (s.resp.held ++ s.i2r) = s.itorSent
  respToItor : s.itorGot ++ (s.itor.held ++ s.r2i) = s.respSent

/-- The description of the layer. -/
structure JamOk (s : Pair) : Prop where
  dojam : cfg.itor_type = .dojam → JamType.dojam ∈ cfg.accept → DojamOk crypto s
  nojam : cfg.itor_type = .nojam → JamType.nojam ∈ cfg.accept →
    startsWithHeader crypto s.itorSent = false → NojamOk cfg s
  other : cfg.itor_type ∉ cfg.accept → ∀ f, s.resp ≠ .full f

/-- Where the responder does not accept the type of the initiator, it must accept
`DOJAM` at least, and what it has when it has 40 bytes must not be a header. -/
def EventOk (s : Pair) : Event → Prop
  | .respRecv len => cfg.itor_type ∈ cfg.accept ∨
      ∀ recv_buffer, s.resp = .waiting recv_buffer → JamType.dojam ∈ cfg.accept ∧
        startsWithHeader crypto (recv_buffer ++ s.i2r.take len) = false
  | _ => True

/-! ### Headers and ciphers -/

theorem xor_xor (a k : UInt8) : a ^^^ k ^^^ k = a := by
  rw [UInt8.xor_assoc, UInt8.xor_self, UInt8.xor_zero]

theorem length_checkOf (nonce : Datum) : (checkOf crypto nonce).length = 20 :=
  (BtId.ofDatum crypto.sha1 nonce).2

theorem length_header (nonce : BtId) : (header crypto nonce).length = 40 := by
  rw [header, List.length_append, nonce.2, length_checkOf]

theorem nonceOf_header (nonce : BtId) (rest : Datum) :
    nonceOf (header crypto nonce ++ rest) = nonce.1 := by
  rw [nonceOf, header, List.append_assoc, List.take_left' nonce.2]

theorem isCheckValid_header (nonce : BtId) (rest : Datum) :
    isCheckValid crypto (header crypto nonce ++ rest) = true := by
  rw [isCheckValid, nonceOf_header, header, List.append_assoc, List.drop_left' nonce.2,
    List.take_left' (length_checkOf crypto _), decide_eq_true rfl]

theorem drop_header (nonce : BtId) (rest : Datum) :
    (header crypto nonce ++ rest).drop 40 = rest :=
  List.drop_left' (length_header crypto nonce)

/-- The key under which the responder sends. -/
def respKey : Datum := keyOf crypto labelI2r cfg.itor_nonce.1 cfg.resp_nonce.1

/-- The key under which the initiator sends. -/
def itorKey : Datum := keyOf crypto labelR2i cfg.itor_nonce.1 cfg.resp_nonce.1

theorem buildXmitCiph_eq (itor_nonce resp_nonce : Datum) (is_itor : Bool) :
    buildXmitCiph crypto itor_nonce resp_nonce is_itor
      = ⟨keyOf crypto (if is_itor then labelI2r else labelR2i) itor_nonce resp_nonce, 1024⟩ := by
  rw [buildXmitCiph, SkeyCiph.encipher, List.length_replicate]

theorem buildRecvCiph_eq (itor_nonce resp_nonce : Datum) (is_itor : Bool) :
    buildRecvCiph crypto itor_nonce resp_nonce is_itor
      = ⟨keyOf crypto (if is_itor then labelR2i else labelI2r) itor_nonce resp_nonce, 1024⟩ := by
  rw [buildRecvCiph, SkeyCiph.encipher, List.length_replicate]

variable {crypto cfg} {s : Pair}

/-- What a connection hands up, with a cipher. -/
theorem notifyRecvedData_ciph {held pkt : Datum} {xmit_ciph recv_ciph : SkeyCiph} :
    Full.notifyRecvedData crypto ⟨held, some (xmit_ciph, recv_ciph)⟩ pkt
      = (crypt (· ^^^ ·) (crypto.keystream xmit_ciph.key) xmit_ciph.pos (held ++ pkt),
        ⟨[], some ({ xmit_ciph with pos := xmit_ciph.pos + (held ++ pkt).length },
          recv_ciph)⟩) := by
  have hout : (if held = [] then pkt else held ++ pkt) = held ++ pkt := by
    split_ifs with h
    · rw [h, List.nil_append]
    · rfl
  rw [Full.notifyRecvedData, hout]
  rfl

theorem notifyRecvedData_plain {held pkt : Datum} :
    Full.notifyRecvedData crypto ⟨held, none⟩ pkt = (held ++ pkt, ⟨[], none⟩) := by
  have hout : (if held = [] then pkt else held ++ pkt) = held ++ pkt := by
    split_ifs with h
    · rw [h, List.nil_append]
    · rfl
  rw [Full.notifyRecvedData, hout]

/-! ### Two sides which conceal -/

variable (crypto cfg) in
/-- The bytes of a direction, under the key of the direction. -/
abbrev Stream (key sent got wire : Datum) : Prop :=
  Carried (· ^^^ ·) (crypto.keystream key) 1024 sent got wire

variable (crypto cfg) in
/-- The connection is established in two steps, one for each header. -/
inductive DojamInv : Pair → Prop
  | greeting (recv_buffer i2r : Datum) (hheader : recv_buffer ++ i2r = header crypto cfg.itor_nonce)
      (hshort : recv_buffer.length < 40) :
      DojamInv ⟨.waiting [], .waiting recv_buffer, i2r, [], [], [], [], []⟩
  | replied (recv_buffer r2i respSent : Datum)
      (hheader : recv_buffer ++ r2i = header crypto cfg.resp_nonce
        ++ crypt (· ^^^ ·) (crypto.keystream (respKey crypto cfg)) 1024 respSent)
      (hshort : recv_buffer.length < 40) :
      DojamInv ⟨.waiting recv_buffer,
        .full ⟨[], some (⟨itorKey crypto cfg, 1024⟩,
          ⟨respKey crypto cfg, 1024 + respSent.length⟩)⟩, [], r2i, [], respSent, [], []⟩
  | established (held i2r r2i itorSent respSent itorGot respGot : Datum)
      (hi2r : Stream crypto (itorKey crypto cfg) itorSent respGot i2r)
      (hr2i : Stream crypto (respKey crypto cfg) respSent itorGot (held ++ r2i)) :
      DojamInv ⟨.full ⟨held, some (⟨respKey crypto cfg, 1024 + itorGot.length⟩,
          ⟨itorKey crypto cfg, 1024 + itorSent.length⟩)⟩,
        .full ⟨[], some (⟨itorKey crypto cfg, 1024 + respGot.length⟩,
          ⟨respKey crypto cfg, 1024 + respSent.length⟩)⟩,
        i2r, r2i, itorSent, respSent, itorGot, respGot⟩

theorem dojamInv_start (htype : cfg.itor_type = .dojam) :
    DojamInv crypto cfg (start crypto cfg) := by
  rw [start, htype]
  exact DojamInv.greeting [] _ (List.nil_append _) (by decide)

/-- The header has arrived as a whole. -/
theorem eq_header_of_length {nonce : BtId} {buffer wire rest : Datum}
    (h : buffer ++ wire = header crypto nonce ++ rest) (hlen : ¬buffer.length < 40) :
    ∃ more, buffer = header crypto nonce ++ more ∧ rest = more ++ wire := by
  have hheader := length_header crypto nonce
  obtain ⟨more, hmore⟩ : ∃ more, buffer = header crypto nonce ++ more := by
    refine ⟨buffer.drop 40, ?_⟩
    have htake := congrArg (List.take 40) h
    rw [List.take_append_of_le_length (Nat.not_lt.1 hlen), List.take_left' hheader] at htake
    rw [← htake, List.take_append_drop]
  refine ⟨more, hmore, ?_⟩
  rw [hmore, List.append_assoc] at h
  exact (List.append_cancel_left h).symm

/-- The responder has the header of the initiator. -/
theorem respRecved_header {recv_buffer pkt more : Datum} (haccept : JamType.dojam ∈ cfg.accept)
    (h : recv_buffer ++ pkt = header crypto cfg.itor_nonce ++ more) :
    respRecved crypto cfg.accept cfg.resp_nonce recv_buffer pkt
      = (.full ⟨more, some (⟨itorKey crypto cfg, 1024⟩, ⟨respKey crypto cfg, 1024⟩)⟩,
        header crypto cfg.resp_nonce) := by
  have hlen : ¬(recv_buffer ++ pkt).length < 2 * 20 := by
    rw [h, List.length_append, length_header]
    omega
  have hvalid := isCheckValid_header crypto cfg.itor_nonce more
  rw [respRecved, if_pos haccept, if_neg hlen, h, if_neg (by rw [hvalid]; simp), if_pos hvalid,
    drop_header, nonceOf_header, buildXmitCiph_eq, buildRecvCiph_eq]
  rfl

theorem respRecved_short {accept : List JamType} {nonce : BtId} {recv_buffer pkt : Datum}
    (haccept : JamType.dojam ∈ accept) (hlen : (recv_buffer ++ pkt).length < 40) :
    respRecved crypto accept nonce recv_buffer pkt = (.waiting (recv_buffer ++ pkt), []) := by
  rw [respRecved, if_pos haccept]
  exact if_pos hlen

/-- The initiator has the header of the responder. -/
theorem itorRecved_header {recv_buffer pkt more : Datum}
    (h : recv_buffer ++ pkt = header crypto cfg.resp_nonce ++ more) :
    itorRecved crypto .dojam cfg.itor_nonce recv_buffer pkt
      = .full ⟨more, some (⟨respKey crypto cfg, 1024⟩, ⟨itorKey crypto cfg, 1024⟩)⟩ := by
  have hlen : ¬(recv_buffer ++ pkt).length < 2 * 20 := by
    rw [h, List.length_append, length_header]
    omega
  have hvalid := isCheckValid_header crypto cfg.resp_nonce more
  rw [itorRecved]
  show (if (recv_buffer ++ pkt).length < 2 * 20 then _ else _) = _
  rw [if_neg hlen, h, if_pos hvalid, drop_header, nonceOf_header, buildXmitCiph_eq,
    buildRecvCiph_eq]
  rfl

theorem itorRecved_short {nonce : BtId} {recv_buffer pkt : Datum}
    (hlen : (recv_buffer ++ pkt).length < 40) :
    itorRecved crypto .dojam nonce recv_buffer pkt = .waiting (recv_buffer ++ pkt) := if_pos hlen

theorem step_itorRecv_waiting {recv_buffer : Datum} (h : s.itor = .waiting recv_buffer) (len : ℕ) :
    step crypto cfg s (.itorRecv len) = { s with
      itor := itorRecved crypto cfg.itor_type cfg.itor_nonce recv_buffer (s.r2i.take len)
      r2i := s.r2i.drop len } := by
  rw [step, h]

theorem step_itorRecv_full {f : Full} (h : s.itor = .full f) (len : ℕ) :
    step crypto cfg s (.itorRecv len) = { s with
      itor := .full (f.notifyRecvedData crypto (s.r2i.take len)).2
      r2i := s.r2i.drop len
      itorGot := s.itorGot ++ (f.notifyRecvedData crypto (s.r2i.take len)).1 } := by
  rw [step, h]

theorem step_respRecv_waiting {recv_buffer : Datum} (h : s.resp = .waiting recv_buffer) (len : ℕ) :
    step crypto cfg s (.respRecv len) = { s with
      resp := (respRecved crypto cfg.accept cfg.resp_nonce recv_buffer (s.i2r.take len)).1
      i2r := s.i2r.drop len
      r2i := s.r2i ++
        (respRecved crypto cfg.accept cfg.resp_nonce recv_buffer (s.i2r.take len)).2 } := by
  rw [step, h]

theorem step_respRecv_full {f : Full} (h : s.resp = .full f) (len : ℕ) :
    step crypto cfg s (.respRecv len) = { s with
      resp := .full (f.notifyRecvedData crypto (s.i2r.take len)).2
      i2r := s.i2r.drop len
      respGot := s.respGot ++ (f.notifyRecvedData crypto (s.i2r.take len)).1 } := by
  rw [step, h]

/-- The bytes which arrive, and those still under way. -/
theorem held_take_drop (held wire : Datum) (len : ℕ) :
    held ++ wire = held ++ wire.take len ++ wire.drop len := by
  rw [List.append_assoc, List.take_append_drop]

theorem DojamInv.step (htype : cfg.itor_type = .dojam) (haccept : JamType.dojam ∈ cfg.accept)
    (h : DojamInv crypto cfg s) (e : Event) : DojamInv crypto cfg (Jamrc4.step crypto cfg s e) := by
  cases h with
  | greeting recv_buffer i2r hheader hshort =>
    cases e with
    | itorRecv len =>
      -- nothing is under way to the initiator
      rw [step_itorRecv_waiting rfl, htype, List.take_nil, List.drop_nil,
        itorRecved_short (by decide)]
      exact DojamInv.greeting recv_buffer i2r hheader hshort
    | respRecv len =>
      rw [held_take_drop recv_buffer i2r len] at hheader
      rw [step_respRecv_waiting rfl]
      by_cases hlen : (recv_buffer ++ i2r.take len).length < 40
      · rw [respRecved_short haccept hlen]
        exact DojamInv.greeting _ _ hheader hlen
      · -- the header is there, and nothing behind it
        rw [← List.append_nil (header crypto cfg.itor_nonce)] at hheader
        obtain ⟨more, hbuffer, hnil⟩ := eq_header_of_length hheader hlen
        obtain ⟨rfl, hdrop⟩ := List.append_eq_nil_iff.1 hnil.symm
        rw [respRecved_header haccept hbuffer, hdrop, List.nil_append]
        exact DojamInv.replied [] _ [] (by rw [crypt_nil, List.append_nil, List.nil_append])
          (by decide)
    | itorSend data => exact DojamInv.greeting recv_buffer i2r hheader hshort
    | respSend data => exact DojamInv.greeting recv_buffer i2r hheader hshort
  | replied recv_buffer r2i respSent hheader hshort =>
    cases e with
    | itorRecv len =>
      rw [held_take_drop recv_buffer r2i len] at hheader
      rw [step_itorRecv_waiting rfl, htype]
      by_cases hlen : (recv_buffer ++ r2i.take len).length < 40
      · rw [itorRecved_short hlen]
        exact DojamInv.replied _ _ respSent hheader hlen
      · -- what came behind the header stays in the initial buffer
        obtain ⟨more, hbuffer, hmore⟩ := eq_header_of_length hheader hlen
        rw [itorRecved_header hbuffer]
        refine DojamInv.established more [] (r2i.drop len) [] respSent [] [] Carried.nil ?_
        rw [← hmore]
        exact carried_of_sent respSent
    | respRecv len =>
      rw [step_respRecv_full rfl, notifyRecvedData_ciph, List.take_nil, List.drop_nil]
      exact DojamInv.replied recv_buffer r2i respSent hheader hshort
    | itorSend data => exact DojamInv.replied recv_buffer r2i respSent hheader hshort
    | respSend data =>
      have hstream : recv_buffer ++ (r2i ++ crypt (· ^^^ ·)
          (crypto.keystream (respKey crypto cfg)) (1024 + respSent.length) data)
          = header crypto cfg.resp_nonce ++ crypt (· ^^^ ·)
            (crypto.keystream (respKey crypto cfg)) 1024 (respSent ++ data) := by
        rw [crypt_append, ← List.append_assoc, hheader, List.append_assoc]
      have hnext := DojamInv.replied recv_buffer _ _ hstream hshort
      rw [List.length_append, ← Nat.add_assoc] at hnext
      exact hnext
  | established held i2r r2i itorSent respSent itorGot respGot hi2r hr2i =>
    cases e with
    | itorRecv len =>
      rw [held_take_drop held r2i len] at hr2i
      have hnext := DojamInv.established [] i2r (r2i.drop len) itorSent respSent _ respGot hi2r
        (hr2i.recv xor_xor)
      rw [List.length_append, length_crypt, ← Nat.add_assoc] at hnext
      rw [step_itorRecv_full rfl, notifyRecvedData_ciph]
      exact hnext
    | respRecv len =>
      rw [← List.take_append_drop len i2r] at hi2r
      have hnext := DojamInv.established held (i2r.drop len) r2i itorSent respSent itorGot _
        (hi2r.recv xor_xor) hr2i
      rw [List.length_append, length_crypt, ← Nat.add_assoc] at hnext
      rw [step_respRecv_full rfl, notifyRecvedData_ciph]
      exact hnext
    | itorSend data =>
      have hnext := DojamInv.established held _ r2i _ respSent itorGot respGot (hi2r.send data)
        hr2i
      rw [List.length_append, ← Nat.add_assoc] at hnext
      exact hnext
    | respSend data =>
      have hsend := hr2i.send data
      rw [List.append_assoc] at hsend
      have hnext := DojamInv.established held i2r _ itorSent _ itorGot respGot hi2r hsend
      rw [List.length_append, ← Nat.add_assoc] at hnext
      exact hnext

theorem DojamInv.dojamOk (h : DojamInv crypto cfg s) : DojamOk crypto s := by
  cases h with
  | greeting recv_buffer i2r hheader hshort =>
    refine ⟨⟨nofun, nofun⟩, fun hnil => ?_, nofun, nofun, nofun⟩
    have hnil : i2r = [] := hnil
    have hlen := length_header crypto cfg.itor_nonce
    rw [← hheader, hnil, List.append_nil] at hlen
    omega
  | replied recv_buffer r2i respSent hheader hshort =>
    refine ⟨⟨nofun, nofun⟩, fun _ => ⟨_, rfl⟩, fun _ _ hnil => ?_, ?_, nofun⟩
    · have hnil : r2i = [] := hnil
      have hlen := congrArg List.length hheader
      rw [hnil, List.append_nil, List.length_append, length_header] at hlen
      omega
    · rintro f ⟨⟩
      rw [notifyRecvedData_ciph]
      rfl
  | established held i2r r2i itorSent respSent itorGot respGot hi2r hr2i =>
    refine ⟨⟨nofun, nofun⟩, fun _ => ⟨_, rfl⟩, fun _ _ _ => ⟨_, rfl⟩, ?_, ?_⟩
    · rintro f ⟨⟩
      rw [notifyRecvedData_ciph]
      exact hi2r.sent_eq xor_xor
    · rintro f ⟨⟩
      rw [notifyRecvedData_ciph]
      exact hr2i.sent_eq xor_xor

/-! ### Two sides which do not conceal -/

/-- Only the first 40 bytes matter. -/
theorem isCheckValid_append {l : Datum} (hlen : 40 ≤ l.length) (m : Datum) :
    isCheckValid crypto (l ++ m) = isCheckValid crypto l := by
  have hdrop : ((l ++ m).drop 20).take 20 = (l.drop 20).take 20 := by
    rw [List.drop_append_of_le_length (by omega), List.take_append_of_le_length]
    rw [List.length_drop]
    omega
  rw [isCheckValid, isCheckValid, nonceOf, nonceOf, hdrop,
    List.take_append_of_le_length (by omega)]

theorem startsWithHeader_iff {l : Datum} :
    startsWithHeader crypto l = true ↔ 40 ≤ l.length ∧ isCheckValid crypto l = true :=
  decide_eq_true_iff

theorem startsWithHeader_append {l : Datum} (h : startsWithHeader crypto l = true) (m : Datum) :
    startsWithHeader crypto (l ++ m) = true := by
  obtain ⟨hlen, hvalid⟩ := startsWithHeader_iff.1 h
  refine startsWithHeader_iff.2 ⟨?_, ?_⟩
  · rw [List.length_append]
    omega
  · rw [isCheckValid_append hlen]
    exact hvalid

variable (cfg) in
/-- Neither side has a cipher, and all the bytes are accounted for. -/
structure Plain (s : Pair) : Prop where
  itor : s.itor = .waiting [] ∨ ∃ held, s.itor = .full ⟨held, none⟩
  resp : (∃ recv_buffer, s.resp = .waiting recv_buffer ∧ s.respGot = [] ∧
      if JamType.dojam ∈ cfg.accept then recv_buffer.length < 40 else recv_buffer = []) ∨
    ∃ held, s.resp = .full ⟨held, none⟩
  itorToResp : s.respGot ++ (s.resp.held ++ s.i2r) = s.itorSent
  respToItor : s.itorGot ++ (s.itor.held ++ s.r2i) = s.respSent

theorem Plain.nojamOk (h : Plain cfg s) : NojamOk cfg s where
  noError := by
    constructor
    · rcases h.itor with hitor | ⟨held, hitor⟩ <;> rw [hitor] <;> exact nofun
    · rcases h.resp with ⟨b, hresp, -, -⟩ | ⟨held, hresp⟩ <;> rw [hresp] <;> exact nofun
  respBuilt := by
    intro recv_buffer hwait
    rcases h.resp with ⟨b, hresp, -, hshort⟩ | ⟨held, hresp⟩
    · obtain rfl := Side.waiting.inj (hresp.symm.trans hwait)
      exact hshort
    · exact absurd (hresp.symm.trans hwait) nofun
  itorToResp := h.itorToResp
  respToItor := h.respToItor

theorem plain_start (htype : cfg.itor_type = .nojam) : Plain cfg (start crypto cfg) := by
  refine ⟨Or.inl rfl, Or.inl ⟨[], rfl, rfl, ?_⟩, ?_, rfl⟩
  · split_ifs
    · decide
    · rfl
  · rw [start, htype]
    rfl

/-- What arrives in a buffer, and what is left under way. -/
theorem got_held_take (got held wire : Datum) (len : ℕ) :
    got ++ (held ++ wire.take len ++ wire.drop len) = got ++ (held ++ wire) := by
  rw [← held_take_drop]

/-- A connection without cipher hands up what it held and what arrives. -/
theorem handUp_plain (got held wire : Datum) (len : ℕ) :
    got ++ (held ++ wire.take len) ++ ([] ++ wire.drop len) = got ++ (held ++ wire) := by
  rw [List.nil_append, List.append_assoc got, ← held_take_drop]

theorem send_plain {got held wire sent : Datum} (h : got ++ (held ++ wire) = sent)
    (data : Datum) : got ++ (held ++ (wire ++ data)) = sent ++ data := by
  rw [← h, List.append_assoc, List.append_assoc]

/-- The responder, without a header from the initiator. -/
theorem respRecved_plain {recv_buffer pkt : Datum} (haccept : JamType.nojam ∈ cfg.accept)
    (hnot : startsWithHeader crypto (recv_buffer ++ pkt) = false) :
    respRecved crypto cfg.accept cfg.resp_nonce recv_buffer pkt
      = (if JamType.dojam ∈ cfg.accept ∧ (recv_buffer ++ pkt).length < 40 then
          .waiting (recv_buffer ++ pkt) else .full ⟨recv_buffer ++ pkt, none⟩, []) := by
  by_cases hdojam : JamType.dojam ∈ cfg.accept
  · by_cases hlen : (recv_buffer ++ pkt).length < 40
    · rw [respRecved_short hdojam hlen, if_pos ⟨hdojam, hlen⟩]
    · have hvalid : ¬isCheckValid crypto (recv_buffer ++ pkt) = true := by
        intro hvalid
        rw [startsWithHeader_iff.2 ⟨Nat.not_lt.1 hlen, hvalid⟩] at hnot
        cases hnot
      rw [if_neg (fun h => hlen h.2), respRecved, if_pos hdojam]
      exact (if_neg hlen).trans ((if_neg (fun h => h.2 haccept)).trans (if_neg hvalid))
  · rw [if_neg (fun h => hdojam h.1), respRecved, if_neg hdojam]

theorem Plain.step (htype : cfg.itor_type = .nojam) (haccept : JamType.nojam ∈ cfg.accept)
    (h : Plain cfg s) (e : Event) :
    startsWithHeader crypto s.itorSent = true ∨ Plain cfg (Jamrc4.step crypto cfg s e) := by
  obtain ⟨itor, resp, i2r, r2i, itorSent, respSent, itorGot, respGot⟩ := s
  obtain ⟨hitor, hresp, hi2r, hr2i⟩ := h
  cases e with
  | itorRecv len =>
    right
    rcases hitor with rfl | ⟨held, rfl⟩
    · -- the first data, or the start of the initiator, build the connection
      rw [step_itorRecv_waiting rfl, htype]
      exact ⟨Or.inr ⟨_, rfl⟩, hresp, hi2r, (got_held_take itorGot [] r2i len).trans hr2i⟩
    · rw [step_itorRecv_full rfl, notifyRecvedData_plain]
      exact ⟨Or.inr ⟨_, rfl⟩, hresp, hi2r, (handUp_plain itorGot held r2i len).trans hr2i⟩
  | respRecv len =>
    rcases hresp with ⟨recv_buffer, rfl, hgot, -⟩ | ⟨held, rfl⟩
    · have hgot : respGot = [] := hgot
      have hi2r : respGot ++ (recv_buffer ++ i2r) = itorSent := hi2r
      by_cases hheader : startsWithHeader crypto (recv_buffer ++ i2r.take len) = true
      · -- the stream starts with a header
        left
        have hmore := startsWithHeader_append hheader (i2r.drop len)
        rw [← held_take_drop] at hmore
        rw [hgot, List.nil_append] at hi2r
        rw [← hi2r]
        exact hmore
      · right
        rw [step_respRecv_waiting rfl,
          respRecved_plain haccept (Bool.eq_false_iff.2 hheader)]
        have hbytes := (got_held_take respGot recv_buffer i2r len).trans hi2r
        have hr2i' : itorGot ++ (itor.held ++ (r2i ++ [])) = respSent := by
          rw [List.append_nil]
          exact hr2i
        -- a responder which also accepts jamming waits for the length of a header
        by_cases hwait : JamType.dojam ∈ cfg.accept ∧ (recv_buffer ++ i2r.take len).length < 40
        · rw [if_pos hwait]
          refine ⟨hitor, Or.inl ⟨_, rfl, hgot, ?_⟩, hbytes, hr2i'⟩
          rw [if_pos hwait.1]
          exact hwait.2
        · rw [if_neg hwait]
          exact ⟨hitor, Or.inr ⟨_, rfl⟩, hbytes, hr2i'⟩
    · right
      rw [step_respRecv_full rfl, notifyRecvedData_plain]
      exact ⟨hitor, Or.inr ⟨_, rfl⟩, (handUp_plain respGot held i2r len).trans hi2r, hr2i⟩
  | itorSend data =>
    right
    rcases hitor with rfl | ⟨held, rfl⟩
    · exact ⟨Or.inl rfl, hresp, hi2r, hr2i⟩
    · exact ⟨Or.inr ⟨held, rfl⟩, hresp, send_plain hi2r data, hr2i⟩
  | respSend data =>
    right
    rcases hresp with ⟨recv_buffer, rfl, hgot, hshort⟩ | ⟨held, rfl⟩
    · exact ⟨hitor, Or.inl ⟨recv_buffer, rfl, hgot, hshort⟩, hi2r, hr2i⟩
    · exact ⟨hitor, Or.inr ⟨held, rfl⟩, hi2r, send_plain hr2i data⟩

/-- What was sent stays the begin of what is sent. -/
theorem itorSent_step (s : Pair) (e : Event) :
    ∃ more, (step crypto cfg s e).itorSent = s.itorSent ++ more := by
  obtain ⟨itor, resp, i2r, r2i, itorSent, respSent, itorGot, respGot⟩ := s
  cases e with
  | itorRecv len => cases itor <;> exact ⟨[], (List.append_nil _).symm⟩
  | respRecv len => cases resp <;> exact ⟨[], (List.append_nil _).symm⟩
  | itorSend data =>
    cases itor with
    | waiting recv_buffer => exact ⟨[], (List.append_nil _).symm⟩
    | full f => exact ⟨data, rfl⟩
    | error => exact ⟨[], (List.append_nil _).symm⟩
  | respSend data => cases resp <;> exact ⟨[], (List.append_nil _).symm⟩

/-! ### The runs of a pair -/

variable (crypto cfg) in
/-- What holds of the states of a pair whose responder accepts the initiator. -/
structure Inv (s : Pair) : Prop where
  dojam : cfg.itor_type = .dojam → DojamInv crypto cfg s
  nojam : cfg.itor_type = .nojam → startsWithHeader crypto s.itorSent = true ∨ Plain cfg s

theorem inv_start : Inv crypto cfg (start crypto cfg) :=
  ⟨dojamInv_start, fun htype => Or.inr (plain_start htype)⟩

theorem Inv.step (haccept : cfg.itor_type ∈ cfg.accept) (h : Inv crypto cfg s) (e : Event) :
    Inv crypto cfg (Jamrc4.step crypto cfg s e) where
  dojam htype := (h.dojam htype).step htype (htype ▸ haccept) e
  nojam htype := by
    obtain ⟨more, hmore⟩ : ∃ more, (Jamrc4.step crypto cfg s e).itorSent = s.itorSent ++ more :=
      itorSent_step s e
    have hheader : startsWithHeader crypto s.itorSent = true →
        startsWithHeader crypto (Jamrc4.step crypto cfg s e).itorSent = true := by
      intro hs
      rw [hmore]
      exact startsWithHeader_append hs more
    rcases h.nojam htype with hs | hplain
    · exact Or.inl (hheader hs)
    · exact (hplain.step htype (htype ▸ haccept) e).imp_left hheader

theorem Inv.jamOk (haccept : cfg.itor_type ∈ cfg.accept) (h : Inv crypto cfg s) :
    JamOk crypto cfg s where
  dojam htype _ := (h.dojam htype).dojamOk
  nojam htype _ hnot := by
    rcases h.nojam htype with hs | hplain
    · exact absurd (hs.symm.trans hnot) nofun
    · exact hplain.nojamOk
  other hnot := absurd haccept hnot

/-- Where the responder does not accept the initiator, only its state matters. -/
theorem jamOk_iff (haccept : cfg.itor_type ∉ cfg.accept) :
    JamOk crypto cfg s ↔ ∀ f, s.resp ≠ .full f := by
  refine ⟨fun h => h.other haccept,
    fun h => ⟨fun htype hmem => ?_, fun htype hmem => ?_, fun _ => h⟩⟩
  · exact absurd (htype ▸ hmem) haccept
  · exact absurd (htype ▸ hmem) haccept

/-- Only data for it change the responder, as long as it has no connection. -/
theorem resp_step (h : ∀ f, s.resp ≠ .full f) (e : Event) :
    (step crypto cfg s e).resp = s.resp ∨ ∃ len, e = .respRecv len := by
  obtain ⟨itor, resp, i2r, r2i, itorSent, respSent, itorGot, respGot⟩ := s
  cases e with
  | itorRecv len => left; cases itor <;> rfl
  | respRecv len => exact Or.inr ⟨len, rfl⟩
  | itorSend data => left; cases itor <;> rfl
  | respSend data =>
    left
    cases resp with
    | waiting recv_buffer => rfl
    | full f => exact absurd rfl (h f)
    | error => rfl

/-- The responder which does not accept the initiator builds no connection exactly
when it accepts `DOJAM`, and what it has is no header. -/
theorem respRecved_not_full {recv_buffer pkt : Datum} (haccept : cfg.itor_type ∉ cfg.accept) :
    (∀ f, (respRecved crypto cfg.accept cfg.resp_nonce recv_buffer pkt).1 ≠ .full f) ↔
      JamType.dojam ∈ cfg.accept ∧ startsWithHeader crypto (recv_buffer ++ pkt) = false := by
  by_cases hdojam : JamType.dojam ∈ cfg.accept
  · -- the initiator is not one which conceals, and the responder accepts no other
    have hnojam : JamType.nojam ∉ cfg.accept := by
      intro hmem
      cases htype : cfg.itor_type with
      | nojam => exact haccept (htype ▸ hmem)
      | dojam => exact haccept (htype ▸ hdojam)
    rw [and_iff_right hdojam]
    by_cases hlen : (recv_buffer ++ pkt).length < 40
    · rw [respRecved_short hdojam hlen]
      refine iff_of_true nofun (Bool.eq_false_iff.2 fun hs => ?_)
      have hle := (startsWithHeader_iff.1 hs).1
      omega
    · rw [respRecved, if_pos hdojam]
      by_cases hvalid : isCheckValid crypto (recv_buffer ++ pkt) = true
      · have hs : startsWithHeader crypto (recv_buffer ++ pkt) = true :=
          startsWithHeader_iff.2 ⟨Nat.not_lt.1 hlen, hvalid⟩
        rw [if_neg hlen, if_neg (fun h => h.1 hvalid), if_pos hvalid, hs]
        exact iff_of_false (fun h => h _ rfl) nofun
      · rw [if_neg hlen, if_pos ⟨hvalid, hnojam⟩]
        refine iff_of_true nofun (Bool.eq_false_iff.2 fun hs => ?_)
        exact hvalid (startsWithHeader_iff.1 hs).2
  · rw [respRecved, if_neg hdojam]
    exact iff_of_false (fun h => h _ rfl) (fun h => hdojam h.1)

theorem eventOk_iff (haccept : cfg.itor_type ∉ cfg.accept) (hs : ∀ f, s.resp ≠ .full f)
    (e : Event) : (∀ f, (step crypto cfg s e).resp ≠ .full f) ↔ EventOk crypto cfg s e := by
  rcases resp_step hs e with heq | ⟨len, rfl⟩
  · rw [heq]
    refine iff_of_true hs ?_
    cases e with
    | respRecv len =>
      refine Or.inr fun recv_buffer hwait => ?_
      -- the responder would not be the same after 40 bytes
      rw [step_respRecv_waiting hwait] at heq
      refine (respRecved_not_full haccept).1 fun f hf => hs f ?_
      rw [← heq]
      exact hf
    | itorRecv len => exact trivial
    | itorSend data => exact trivial
    | respSend data => exact trivial
  · rw [EventOk, or_iff_right haccept]
    cases hresp : s.resp with
    | full f => exact absurd hresp (hs f)
    | waiting recv_buffer =>
      rw [step_respRecv_waiting hresp]
      refine (respRecved_not_full haccept).trans ⟨?_, fun h => h recv_buffer rfl⟩
      rintro h b ⟨⟩
      exact h
    | error =>
      have hsame : (step crypto cfg s (.respRecv len)).resp = .error := by rw [step, hresp, hresp]
      rw [hsame]
      exact iff_of_true nofun nofun

/-- The layer does what its description says in every state of a run exactly when the
responder accepts the type of the initiator, or accepts `DOJAM` only and is never sent
a header, or is sent nothing. -/
theorem always_jamOk_iff (crypto : Crypto) (cfg : Cfg) (evs : List Event) :
    Always (step crypto cfg) (JamOk crypto cfg) (start crypto cfg) evs
      ↔ Guarded (step crypto cfg) (EventOk crypto cfg) (start crypto cfg) evs := by
  by_cases haccept : cfg.itor_type ∈ cfg.accept
  · have hinv : Always (step crypto cfg) (Inv crypto cfg) (start crypto cfg) evs :=
      always_invariant (fun s e h => h.step haccept e) inv_start evs
    have hall := hinv.mono fun s h => h.jamOk haccept
    have hok : ∀ s e, EventOk crypto cfg s e := by
      intro s e
      cases e with
      | respRecv len => exact Or.inl haccept
      | itorRecv len => exact trivial
      | itorSend data => exact trivial
      | respSend data => exact trivial
    refine iff_of_true hall ?_
    rw [guarded_congr (Q := fun _ => True) (fun _ _ _ => trivial)
      (fun s e _ => iff_true_intro (hok s e)) trivial]
    exact guarded_true
  · apply always_iff_guarded (Q := fun _ => True)
    · exact fun _ _ _ _ => trivial
    · intro s e _ hs
      rw [jamOk_iff haccept]
      exact eventOk_iff haccept ((jamOk_iff haccept).1 hs) e
    · rw [jamOk_iff haccept]
      exact nofun
    · exact trivial

/-- A responder which accepts `NOJAM` alone builds a plain connection on the header of
an initiator which conceals. -/
theorem not_always_jamOk :
    let crypto : Crypto := ⟨fun _ => ⟨List.replicate 20 0, rfl⟩, fun _ _ => 0⟩
    let cfg : Cfg :=
      ⟨.dojam, [.nojam], ⟨List.replicate 20 1, rfl⟩, ⟨List.replicate 20 2, rfl⟩⟩
    ¬Always (step crypto cfg) (JamOk crypto cfg) (start crypto cfg) [.respRecv 40] := by
  apply not_always_of_run
  intro h
  exact h.other (by decide) _ rfl

end Neoip.Jamrc4
