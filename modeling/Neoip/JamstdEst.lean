/-
Neoip/JamstdEst.lean

Where each side of the handshake is, by the bytes which it got.

The bytes which a side sends during the handshake are known in advance: `Cfg.esta` and
`Cfg.auth` of each.  A side reads them to their end whatever the chunks are, so its state
depends only on how many it has: `itorAt` and `respAt` say how.  They hold as long as the
mark of each side is not in the padding before it, and the initiator does not begin as the
protocol in clear does (`Cfg.Synced`).

Main results: `itor_notify` and `resp_notify`, one chunk after the other.
-/
import Neoip.Jamstd

namespace Neoip.Jamstd

open Jamrc4 (Crypto SkeyCiph xor_xor)

variable (crypto : Crypto) (cfg : Cfg)

/-! ### Ciphers -/

/-- The data under the cipher, from where it is. -/
def mask (ciph : SkeyCiph) (data : Datum) : Datum :=
  crypt (· ^^^ ·) (crypto.keystream ciph.key) ciph.pos data

/-- The cipher, further on. -/
def skip (ciph : SkeyCiph) (len : ℕ) : SkeyCiph := { ciph with pos := ciph.pos + len }

section ciph

variable {crypto} {ciph : SkeyCiph} {data data' : Datum}

theorem encipher_eq : ciph.encipher crypto data = (mask crypto ciph data, skip ciph data.length) :=
  rfl

theorem decipher_eq : ciph.decipher crypto data = (mask crypto ciph data, skip ciph data.length) :=
  rfl

@[simp] theorem length_mask : (mask crypto ciph data).length = data.length := length_crypt _

@[simp] theorem mask_nil : mask crypto ciph [] = [] := rfl

@[simp] theorem mask_mask : mask crypto ciph (mask crypto ciph data) = data :=
  crypt_crypt xor_xor _

theorem mask_append : mask crypto ciph (data ++ data') =
    mask crypto ciph data ++ mask crypto (skip ciph data.length) data' :=
  crypt_append _ _

@[simp] theorem skip_zero : skip ciph 0 = ciph := rfl

@[simp] theorem skip_skip (m n : ℕ) : skip (skip ciph m) n = skip ciph (m + n) := by
  simp only [skip, Nat.add_assoc]

end ciph

/-! ### What is sent -/

namespace Cfg

/-- The public keys are as long as is asserted, and the lengths of the paddings are read as they
were written. -/
structure Fits : Prop where
  pubkey_pos : 0 < cfg.profile.dh_pubkey_len
  itor_len : (usg cfg.itor.dhPubkey).length = cfg.profile.dh_pubkey_len
  resp_len : (usg cfg.resp.dhPubkey).length = cfg.profile.dh_pubkey_len
  itor_padauth : cfg.itor_padauth_len < 2 ^ 16
  resp_padauth : cfg.resp_padauth_len < 2 ^ 16

/-- The secret of both sides. -/
def secret : Datum := cfg.itor.dhShsecret cfg.resp.dhPubkey

theorem resp_secret : cfg.resp.dhShsecret cfg.itor.dhPubkey = cfg.secret :=
  Local.dhShsecret_comm rfl rfl

/-- The cipher of the initiator. -/
def ciphA : SkeyCiph := initCiph crypto labelKeyA cfg.secret cfg.cnx_shsecret

/-- The cipher of the responder. -/
def ciphB : SkeyCiph := initCiph crypto labelKeyB cfg.secret cfg.cnx_shsecret

/-- The constant, the flags and the length of the padding, of a CNXAUTH packet. -/
def head (own : Local) (negoflag : UInt32) : Datum :=
  own.profile.verif_cst ++
    (GenId.bytesOf 4 negoflag.toNat ++ GenId.bytesOf 2 own.padauth_len)

/-- What follows it, in the one of the initiator. -/
def itorTail : Datum := List.replicate cfg.itor_padauth_len 0x99 ++ GenId.bytesOf 2 0

/-- What follows it, in the one of the responder. -/
def respTail : Datum := List.replicate cfg.resp_padauth_len 0x99

/-- The CNXESTA packets. -/
def itorEsta : Datum := usg cfg.itor.dhPubkey ++ cfg.itor_padesta

def respEsta : Datum := usg cfg.resp.dhPubkey ++ cfg.resp_padesta

/-- By which the responder finds the CNXAUTH packet. -/
def respMark : Datum := hashReqs crypto cfg.secret cfg.cnx_shsecret

/-- By which the initiator does. -/
def itorMark : Datum := mask crypto (cfg.ciphB crypto) cfg.profile.verif_cst

/-- The CNXAUTH packet of the initiator. -/
def itorAuth : Datum := cfg.respMark crypto ++
  mask crypto (cfg.ciphA crypto) (head cfg.itor cfg.itor_allowed ++ cfg.itorTail)

/-- The one of the responder. -/
def respAuth (sel : UInt32) : Datum :=
  mask crypto (cfg.ciphB crypto) (head cfg.resp sel ++ cfg.respTail)

/-- What the responder selects. -/
def selected : Option UInt32 := select (cfg.itor_allowed &&& cfg.resp_allowed)

/-- The marks are not before where they were put, and the initiator does not begin as the protocol
in clear. -/
structure Synced : Prop where
  itor : memmem (cfg.itorMark crypto) (cfg.resp_padesta ++ cfg.itorMark crypto) =
    some cfg.resp_padesta.length
  resp : memmem (cfg.respMark crypto) (cfg.itor_padesta ++ cfg.respMark crypto) =
    some cfg.itor_padesta.length
  not_plain : ¬ plainbtSignature <+: cfg.itorEsta ++ cfg.itorAuth crypto

/-- The ciphers at the end of the handshake. -/
def doneA : SkeyCiph :=
  skip (cfg.ciphA crypto) (cfg.profile.verif_cst.length + 6 + cfg.itorTail.length)

def doneB : SkeyCiph :=
  skip (cfg.ciphB crypto) (cfg.profile.verif_cst.length + 6 + cfg.respTail.length)

/-! ### Lengths -/

variable {crypto} {cfg}

@[simp] theorem length_head (own : Local) (negoflag : UInt32) :
    (head own negoflag).length = own.profile.verif_cst.length + 6 := by
  rw [head, List.length_append, List.length_append, GenId.length_bytesOf, GenId.length_bytesOf]

@[simp] theorem length_itorTail : cfg.itorTail.length = cfg.itor_padauth_len + 2 := by
  rw [itorTail, List.length_append, List.length_replicate, GenId.length_bytesOf]

@[simp] theorem length_respTail : cfg.respTail.length = cfg.resp_padauth_len :=
  List.length_replicate

@[simp] theorem length_itorMark : (cfg.itorMark crypto).length = cfg.profile.verif_cst.length :=
  length_mask

theorem length_hash (data : Datum) : (hash crypto data).length = 20 :=
  (BtId.ofDatum crypto.sha1 data).2

@[simp] theorem length_respMark : (cfg.respMark crypto).length = 40 := by
  rw [respMark, hashReqs, List.length_append, List.length_zipWith, length_hash, length_hash,
    length_hash, Nat.min_self]

theorem itorAuth_eq : cfg.itorAuth crypto = cfg.respMark crypto ++
    (mask crypto (cfg.ciphA crypto) (head cfg.itor cfg.itor_allowed) ++
      mask crypto (skip (cfg.ciphA crypto) (cfg.profile.verif_cst.length + 6)) cfg.itorTail) := by
  rw [itorAuth, mask_append, length_head]
  rfl

theorem length_itorAuth : (cfg.itorAuth crypto).length =
    40 + (cfg.profile.verif_cst.length + 6 + (cfg.itor_padauth_len + 2)) := by
  rw [itorAuth, List.length_append, length_mask, List.length_append, length_respMark, length_head,
    length_itorTail]
  rfl

theorem respAuth_eq (sel : UInt32) : cfg.respAuth crypto sel = cfg.itorMark crypto ++
    (mask crypto (skip (cfg.ciphB crypto) cfg.profile.verif_cst.length)
        (GenId.bytesOf 4 sel.toNat ++ GenId.bytesOf 2 cfg.resp_padauth_len) ++
      mask crypto (skip (cfg.ciphB crypto) (cfg.profile.verif_cst.length + 6)) cfg.respTail) := by
  rw [respAuth, head, List.append_assoc, mask_append, mask_append, skip_skip,
    List.length_append, GenId.length_bytesOf, GenId.length_bytesOf]
  rfl

theorem length_respAuth (sel : UInt32) : (cfg.respAuth crypto sel).length =
    cfg.profile.verif_cst.length + 6 + cfg.resp_padauth_len := by
  rw [respAuth, length_mask, List.length_append, length_head, length_respTail]
  rfl

end Cfg

/-- The flags and the length are read as they were written. -/
theorem readNego_bytesOf {negoflag : UInt32} {padauth_len : ℕ} (h : padauth_len < 2 ^ 16) :
    readNego (GenId.bytesOf 4 negoflag.toNat ++ GenId.bytesOf 2 padauth_len) =
      (negoflag, padauth_len) := by
  have hflag := negoflag.toNat_lt
  rw [readNego, List.take_left' (GenId.length_bytesOf 4 _),
    List.drop_left' (GenId.length_bytesOf 4 _),
    List.take_of_length_le (by rw [GenId.length_bytesOf]), GenId.ofBytes_bytesOf,
    GenId.ofBytes_bytesOf, Nat.mod_eq_of_lt (by omega), Nat.mod_eq_of_lt (by omega),
    UInt32.ofNat_toNat]

/-! ### The initiator -/

namespace Itor

variable {crypto} {own : Local} {s s' : Itor} {out : Datum} {n : ℕ}

/-- A turn after which the loop is left. -/
theorem loop_stop (h : s.parse crypto own = (s', out, true)) :
    loop crypto own (n + 1) s = (s', out) := by
  rw [loop, h]
  rfl

theorem loop_next (h : s.parse crypto own = (s', out, false)) : loop crypto own (n + 1) s =
    ((loop crypto own n s').1, out ++ (loop crypto own n s').2) := by
  rw [loop, h]
  rfl

end Itor

/-- An initiator with `b` of the second padding and of what follows it. -/
def itorPadAt (sel : UInt32) (b : Datum) : Itor :=
  if b.length < cfg.resp_padauth_len then
    .padauthWait b (cfg.doneA crypto) (skip (cfg.ciphB crypto) (cfg.profile.verif_cst.length + 6))
      sel cfg.resp_padauth_len
  else
    match establish crypto sel (cfg.doneA crypto) (cfg.doneB crypto) []
        (b.drop cfg.resp_padauth_len) with
    | some f => .full f
    | none => .aborted

/-- An initiator with `b` of the first padding and of what follows it. -/
def itorAuthAt (sel : UInt32) (b : Datum) : Itor :=
  if b.length < cfg.resp_padesta.length + (cfg.profile.verif_cst.length + 6) then
    .cnxauthWait b (cfg.doneA crypto) (skip (cfg.ciphB crypto) cfg.profile.verif_cst.length)
      (cfg.itorMark crypto)
  else
    itorPadAt crypto cfg sel
      (b.drop (cfg.resp_padesta.length + (cfg.profile.verif_cst.length + 6)))

/-- An initiator which got `r`, and what it has sent since its first packet. -/
def itorAt (sel : UInt32) (r : Datum) : Itor × Datum :=
  if r.length < cfg.profile.dh_pubkey_len then (.cnxestaWait r, [])
  else (itorAuthAt crypto cfg sel (r.drop cfg.profile.dh_pubkey_len), cfg.itorAuth crypto)

section itor

variable {crypto cfg} {sel : UInt32} {b r c p : Datum}

theorem itor_pad (n : ℕ) :
    Itor.loop crypto cfg.itor (n + 1) (.padauthWait b (cfg.doneA crypto)
        (skip (cfg.ciphB crypto) (cfg.profile.verif_cst.length + 6)) sel cfg.resp_padauth_len) =
      (itorPadAt crypto cfg sel b, []) := by
  apply Itor.loop_stop
  rw [Itor.parse, itorPadAt]
  split_ifs with hlen
  · rfl
  · dsimp only
    rw [decipher_eq, skip_skip, List.length_take, Nat.min_eq_left (Nat.not_lt.1 hlen)]
    show _ = (match establish crypto sel (cfg.doneA crypto) (cfg.doneB crypto) []
      (b.drop cfg.resp_padauth_len) with
      | some f => Itor.full f
      | none => Itor.aborted, _, _)
    rw [show cfg.doneB crypto = skip (cfg.ciphB crypto)
        (cfg.profile.verif_cst.length + 6 + cfg.resp_padauth_len) by
      rw [Cfg.doneB, Cfg.length_respTail]]
    cases establish crypto sel (cfg.doneA crypto) (skip (cfg.ciphB crypto)
      (cfg.profile.verif_cst.length + 6 + cfg.resp_padauth_len)) []
      (b.drop cfg.resp_padauth_len) <;> rfl

theorem itor_auth (hsync : cfg.Synced crypto) (hfits : cfg.Fits)
    (hsel : cfg.itor_allowed &&& sel = sel) (n : ℕ)
    (hb : b <+: cfg.resp_padesta ++ (cfg.respAuth crypto sel ++ p)) :
    Itor.loop crypto cfg.itor (n + 2) (.cnxauthWait b (cfg.doneA crypto)
        (skip (cfg.ciphB crypto) cfg.profile.verif_cst.length) (cfg.itorMark crypto)) =
      (itorAuthAt crypto cfg sel b, []) := by
  rw [Cfg.respAuth_eq, List.append_assoc (cfg.itorMark crypto)] at hb
  have hfind := memmem_of_prefix hsync.itor hb
  rw [Cfg.length_itorMark] at hfind
  rw [itorAuthAt]
  split_ifs with hlen
  · -- the packet is not there yet, or its mark is not
    apply Itor.loop_stop
    rw [Itor.parse, hfind]
    split_ifs with hmark
    · exact if_pos hlen
    · rfl
  · obtain ⟨-, hbody⟩ := prefix_append_cut hb rfl (by omega)
    obtain ⟨-, hrest⟩ := prefix_append_cut hbody rfl
      (by rw [List.length_drop, Cfg.length_itorMark]; omega)
    rw [List.append_assoc] at hrest
    have hsix : ((b.drop cfg.resp_padesta.length).drop (cfg.itorMark crypto).length).take 6 =
        mask crypto (skip (cfg.ciphB crypto) cfg.profile.verif_cst.length)
          (GenId.bytesOf 4 sel.toNat ++ GenId.bytesOf 2 cfg.resp_padauth_len) := by
      have hlen6 : (mask crypto (skip (cfg.ciphB crypto) cfg.profile.verif_cst.length)
          (GenId.bytesOf 4 sel.toNat ++ GenId.bytesOf 2 cfg.resp_padauth_len)).length = 6 := by
        rw [length_mask, List.length_append, GenId.length_bytesOf, GenId.length_bytesOf]
      refine (prefix_append_cut hrest hlen6 ?_).1
      rw [List.length_drop, List.length_drop, Cfg.length_itorMark]
      omega
    have hparse : Itor.parse crypto cfg.itor (.cnxauthWait b (cfg.doneA crypto)
        (skip (cfg.ciphB crypto) cfg.profile.verif_cst.length) (cfg.itorMark crypto)) =
          (.padauthWait (((b.drop cfg.resp_padesta.length).drop
              (cfg.itorMark crypto).length).drop 6) (cfg.doneA crypto)
            (skip (cfg.ciphB crypto) (cfg.profile.verif_cst.length + 6)) sel cfg.resp_padauth_len,
              [], false) := by
      rw [Itor.parse, hfind, if_pos (by omega)]
      dsimp only
      rw [hsix, decipher_eq, mask_mask]
      dsimp only
      rw [readNego_bytesOf hfits.resp_padauth, length_mask, skip_skip, List.length_append,
        GenId.length_bytesOf, GenId.length_bytesOf]
      exact (if_neg hlen).trans (if_neg (not_not.2 hsel))
    rw [Itor.loop_next hparse, itor_pad, List.drop_drop, List.drop_drop,
      Cfg.length_itorMark]
    rw [show cfg.resp_padesta.length + (cfg.profile.verif_cst.length + 6) =
      cfg.resp_padesta.length + cfg.profile.verif_cst.length + 6 by omega]
    rfl

theorem itor_esta (hsync : cfg.Synced crypto) (hfits : cfg.Fits)
    (hsel : cfg.itor_allowed &&& sel = sel) (n : ℕ)
    (hr : r <+: cfg.respEsta ++ (cfg.respAuth crypto sel ++ p)) :
    Itor.loop crypto cfg.itor (n + 3) (.cnxestaWait r) = itorAt crypto cfg sel r := by
  rw [itorAt]
  split_ifs with hlen
  · apply Itor.loop_stop
    rw [Itor.parse]
    exact if_pos hlen
  · rw [Cfg.respEsta, List.append_assoc] at hr
    obtain ⟨htake, hrest⟩ := prefix_append_cut hr hfits.resp_len (Nat.not_lt.1 hlen)
    have hparse : Itor.parse crypto cfg.itor (.cnxestaWait r) =
        (.cnxauthWait (r.drop cfg.profile.dh_pubkey_len) (cfg.doneA crypto)
          (skip (cfg.ciphB crypto) cfg.profile.verif_cst.length) (cfg.itorMark crypto),
            cfg.itorAuth crypto, false) := by
      have hclear : cnxauthClear cfg.itor cfg.itor_allowed ++ GenId.bytesOf 2 0 =
          Cfg.head cfg.itor cfg.itor_allowed ++ cfg.itorTail := by
        rw [cnxauthClear, Cfg.head, Cfg.itorTail]
        simp only [List.append_assoc]
        rfl
      have hdone : skip (cfg.ciphA crypto)
          (Cfg.head cfg.itor cfg.itor_allowed ++ cfg.itorTail).length = cfg.doneA crypto := by
        rw [List.length_append, Cfg.length_head]
        rfl
      rw [Itor.parse]
      refine (if_neg hlen).trans ?_
      dsimp only
      rw [show cfg.itor.profile.dh_pubkey_len = cfg.profile.dh_pubkey_len from rfl, htake,
        ofUsg_usg]
      show (Itor.cnxauthWait _ (skip (cfg.ciphA crypto)
          (cnxauthClear cfg.itor cfg.itor_allowed ++ GenId.bytesOf 2 0).length) _ _,
        cfg.respMark crypto ++ mask crypto (cfg.ciphA crypto)
          (cnxauthClear cfg.itor cfg.itor_allowed ++ GenId.bytesOf 2 0), false) = _
      rw [hclear, hdone]
      rfl
    rw [Itor.loop_next hparse, itor_auth hsync hfits hsel n hrest, List.append_nil]

/-- Before it has a connection. -/
def itorLen (cfg : Cfg) : ℕ :=
  cfg.profile.dh_pubkey_len +
    (cfg.resp_padesta.length + (cfg.profile.verif_cst.length + 6) + cfg.resp_padauth_len)

/-- **The initiator, one chunk after the other**: it is where the bytes it got say, and has sent
what they say. -/
theorem itor_notify (hsync : cfg.Synced crypto) (hfits : cfg.Fits)
    (hsel : cfg.itor_allowed &&& sel = sel) (hr : r.length < itorLen cfg)
    (hrc : r ++ c <+: cfg.respEsta ++ (cfg.respAuth crypto sel ++ p)) :
    ∃ out, (itorAt crypto cfg sel r).1.notifyRecvedData crypto cfg.itor c =
        ((itorAt crypto cfg sel (r ++ c)).1, out) ∧
      (itorAt crypto cfg sel (r ++ c)).2 = (itorAt crypto cfg sel r).2 ++ out := by
  rw [Itor.notifyRecvedData]
  by_cases hesta : r.length < cfg.profile.dh_pubkey_len
  · refine ⟨(itorAt crypto cfg sel (r ++ c)).2, ?_, ?_⟩
    · rw [itorAt, if_pos hesta]
      show Itor.loop crypto cfg.itor 3 (.cnxestaWait (r ++ c)) = _
      rw [itor_esta hsync hfits hsel 0 hrc]
    · rw [itorAt, itorAt, if_pos hesta]
      rfl
  · -- the packet was sent
    have hdrop : (r ++ c).drop cfg.profile.dh_pubkey_len =
        r.drop cfg.profile.dh_pubkey_len ++ c :=
      List.drop_append_of_le_length (Nat.not_lt.1 hesta)
    have hrc' := hrc.drop cfg.profile.dh_pubkey_len
    rw [hdrop, Cfg.respEsta, List.append_assoc, List.drop_left' hfits.resp_len] at hrc'
    have hesta' : ¬ (r ++ c).length < cfg.profile.dh_pubkey_len := by
      rw [List.length_append]
      omega
    refine ⟨[], ?_, ?_⟩
    · rw [itorAt, itorAt, if_neg hesta, if_neg hesta', hdrop]
      dsimp only
      generalize hb : r.drop cfg.profile.dh_pubkey_len = b at hrc' ⊢
      have hlenb : b.length <
          cfg.resp_padesta.length + (cfg.profile.verif_cst.length + 6) + cfg.resp_padauth_len := by
        rw [← hb, List.length_drop]
        rw [itorLen] at hr
        omega
      by_cases hauth : b.length < cfg.resp_padesta.length + (cfg.profile.verif_cst.length + 6)
      · rw [itorAuthAt, if_pos hauth]
        exact itor_auth hsync hfits hsel 1 hrc'
      · rw [itorAuthAt, itorAuthAt, if_neg hauth, if_neg (by rw [List.length_append]; omega),
          List.drop_append_of_le_length (Nat.not_lt.1 hauth)]
        generalize hb' :
          b.drop (cfg.resp_padesta.length + (cfg.profile.verif_cst.length + 6)) = b'
        have hlenb' : b'.length < cfg.resp_padauth_len := by
          rw [← hb', List.length_drop]
          omega
        rw [itorPadAt, if_pos hlenb']
        exact itor_pad 2
    · rw [itorAt, itorAt, if_neg hesta, if_neg hesta', List.append_nil]

end itor

/-! ### The responder -/

namespace Resp

variable {crypto} {own : Local} {s s' : Resp} {out : Datum} {n : ℕ}

theorem loop_stop (h : s.parse crypto own = (s', out, true)) :
    loop crypto own (n + 1) s = (s', out) := by
  rw [loop, h]
  rfl

theorem loop_next (h : s.parse crypto own = (s', out, false)) : loop crypto own (n + 1) s =
    ((loop crypto own n s').1, out ++ (loop crypto own n s').2) := by
  rw [loop, h]
  rfl

end Resp

/-- A responder with `b` of the second padding and of what follows it. -/
def respPadAt (sel : UInt32) (b : Datum) : Resp :=
  if b.length < cfg.itor_padauth_len + 2 then
    .padauthWait b (cfg.doneB crypto) (skip (cfg.ciphA crypto) (cfg.profile.verif_cst.length + 6))
      sel cfg.itor_padauth_len
  else
    match establish crypto sel (cfg.doneB crypto) (cfg.doneA crypto) []
        (b.drop (cfg.itor_padauth_len + 2)) with
    | some f => .full f
    | none => .aborted

/-- A responder with `b` of the first padding and of what follows it. -/
def respAuthAt (b : Datum) : Resp × Datum :=
  if b.length < cfg.itor_padesta.length + (40 + (cfg.profile.verif_cst.length + 6)) then
    (.cnxauthWait b (cfg.ciphB crypto) (cfg.ciphA crypto) (cfg.respMark crypto), [])
  else
    match cfg.selected with
    | none => (.failed, [])
    | some sel =>
      (respPadAt crypto cfg sel
        (b.drop (cfg.itor_padesta.length + (40 + (cfg.profile.verif_cst.length + 6)))),
        cfg.respAuth crypto sel)

/-- A responder which got `r`, and what it has sent since its first packet. -/
def respAt (r : Datum) : Resp × Datum :=
  if r.length < cfg.profile.dh_pubkey_len then (.cnxestaWait r, [])
  else respAuthAt crypto cfg (r.drop cfg.profile.dh_pubkey_len)

section resp

variable {crypto cfg} {sel : UInt32} {b r c p : Datum}

/-- The initial payload is empty, so no time is spent waiting for it. -/
theorem resp_pad (n : ℕ)
    (hb : b <+: mask crypto (skip (cfg.ciphA crypto) (cfg.profile.verif_cst.length + 6))
      cfg.itorTail ++ p) :
    Resp.loop crypto cfg.resp (n + 2) (.padauthWait b (cfg.doneB crypto)
        (skip (cfg.ciphA crypto) (cfg.profile.verif_cst.length + 6)) sel cfg.itor_padauth_len) =
      (respPadAt crypto cfg sel b, []) := by
  rw [respPadAt]
  split_ifs with hlen
  · apply Resp.loop_stop
    rw [Resp.parse]
    exact if_pos hlen
  · have htake : b.take (cfg.itor_padauth_len + 2) =
        mask crypto (skip (cfg.ciphA crypto) (cfg.profile.verif_cst.length + 6)) cfg.itorTail := by
      have hlen' : (mask crypto (skip (cfg.ciphA crypto) (cfg.profile.verif_cst.length + 6))
          cfg.itorTail).length = cfg.itor_padauth_len + 2 := by
        rw [length_mask, Cfg.length_itorTail]
      exact (prefix_append_cut hb hlen' (Nat.not_lt.1 hlen)).1
    have hdone : skip (cfg.ciphA crypto)
        (cfg.profile.verif_cst.length + 6 + (cfg.itor_padauth_len + 2)) = cfg.doneA crypto := by
      rw [Cfg.doneA, Cfg.length_itorTail]
    have hparse : Resp.parse crypto cfg.resp (.padauthWait b (cfg.doneB crypto)
        (skip (cfg.ciphA crypto) (cfg.profile.verif_cst.length + 6)) sel cfg.itor_padauth_len) =
          (.initpktWait (b.drop (cfg.itor_padauth_len + 2)) (cfg.doneB crypto) (cfg.doneA crypto)
            sel 0, [], false) := by
      have hzero : GenId.ofBytes ((cfg.itorTail.drop cfg.itor_padauth_len).take 2) = 0 := by
        rw [Cfg.itorTail, List.drop_left' List.length_replicate]
        rfl
      rw [Resp.parse]
      refine (if_neg hlen).trans ?_
      rw [htake, decipher_eq, mask_mask, length_mask, Cfg.length_itorTail, skip_skip, hdone]
      dsimp only
      rw [hzero]
    rw [Resp.loop_next hparse]
    -- the first packet is empty, so the connection is established in the same loop
    have hlast : Resp.loop crypto cfg.resp (n + 1) (.initpktWait
        (b.drop (cfg.itor_padauth_len + 2)) (cfg.doneB crypto) (cfg.doneA crypto) sel 0) =
          (match establish crypto sel (cfg.doneB crypto) (cfg.doneA crypto) []
              (b.drop (cfg.itor_padauth_len + 2)) with
            | some f => Resp.full f
            | none => .aborted, []) := by
      apply Resp.loop_stop
      rw [Resp.parse]
      refine (if_neg (Nat.not_lt_zero _)).trans ?_
      rw [List.take_zero, List.drop_zero, decipher_eq]
      dsimp only [mask_nil, List.length_nil, skip_zero]
      cases establish crypto sel (cfg.doneB crypto) (cfg.doneA crypto) []
        (b.drop (cfg.itor_padauth_len + 2)) <;> rfl
    rw [hlast]
    rfl

/-- The second padding of the initiator, behind the rest of its packet. -/
theorem drop_itorAuth : (cfg.itor_padesta ++ (cfg.itorAuth crypto ++ p)).drop
    (cfg.itor_padesta.length + (40 + (cfg.profile.verif_cst.length + 6))) =
      mask crypto (skip (cfg.ciphA crypto) (cfg.profile.verif_cst.length + 6)) cfg.itorTail ++
        p := by
  rw [Cfg.itorAuth_eq, List.append_assoc, List.append_assoc, ← List.append_assoc (cfg.respMark _),
    ← List.append_assoc]
  apply List.drop_left'
  rw [List.length_append, List.length_append, Cfg.length_respMark, length_mask, Cfg.length_head]
  rfl

/-- The responder on what it has of the authentication packet. -/
theorem resp_auth (hsync : cfg.Synced crypto) (hfits : cfg.Fits) (n : ℕ)
    (hb : b <+: cfg.itor_padesta ++ (cfg.itorAuth crypto ++ p)) :
    Resp.loop crypto cfg.resp (n + 3) (.cnxauthWait b (cfg.ciphB crypto) (cfg.ciphA crypto)
        (cfg.respMark crypto)) = respAuthAt crypto cfg b := by
  have hmarked := hb
  rw [Cfg.itorAuth_eq, List.append_assoc (cfg.respMark crypto)] at hmarked
  have hfind := memmem_of_prefix hsync.resp hmarked
  rw [Cfg.length_respMark] at hfind
  rw [respAuthAt]
  split_ifs with hlen
  -- the marker or the head is not all there: one parse, which waits
  · apply Resp.loop_stop
    rw [Resp.parse, hfind]
    split_ifs with hmark
    · refine if_pos ?_
      show b.length < cfg.itor_padesta.length + (20 + 20 + cfg.profile.verif_cst.length + 6)
      omega
    · rfl
  · obtain ⟨-, hbody⟩ := prefix_append_cut hmarked rfl (by omega)
    obtain ⟨-, hrest⟩ := prefix_append_cut hbody rfl
      (by rw [List.length_drop, Cfg.length_respMark]; omega)
    rw [List.append_assoc] at hrest
    have hlenhead : (mask crypto (cfg.ciphA crypto)
        (Cfg.head cfg.itor cfg.itor_allowed)).length = cfg.profile.verif_cst.length + 6 := by
      rw [length_mask, Cfg.length_head]
      rfl
    -- the head deciphers to the marker of the profile and the flags of the initiator
    have hhead : ((b.drop cfg.itor_padesta.length).drop (cfg.respMark crypto).length).take
        (cfg.profile.verif_cst.length + 6) =
          mask crypto (cfg.ciphA crypto) (Cfg.head cfg.itor cfg.itor_allowed) := by
      refine (prefix_append_cut hrest hlenhead ?_).1
      rw [List.length_drop, List.length_drop, Cfg.length_respMark]
      omega
    have hverif : (Cfg.head cfg.itor cfg.itor_allowed).take cfg.profile.verif_cst.length =
        cfg.profile.verif_cst := List.take_left' rfl
    have hnego : (Cfg.head cfg.itor cfg.itor_allowed).drop cfg.profile.verif_cst.length =
        GenId.bytesOf 4 cfg.itor_allowed.toNat ++ GenId.bytesOf 2 cfg.itor_padauth_len :=
      List.drop_left' rfl
    have hdrop : ((b.drop cfg.itor_padesta.length).drop (cfg.respMark crypto).length).drop
        (cfg.profile.verif_cst.length + 6) =
          b.drop (cfg.itor_padesta.length + (40 + (cfg.profile.verif_cst.length + 6))) := by
      rw [List.drop_drop, List.drop_drop, Cfg.length_respMark]
    have hparse : Resp.parse crypto cfg.resp (.cnxauthWait b (cfg.ciphB crypto) (cfg.ciphA crypto)
        (cfg.respMark crypto)) =
          match cfg.selected with
          | none => (.failed, [], true)
          | some sel =>
            (.padauthWait (b.drop (cfg.itor_padesta.length +
                (40 + (cfg.profile.verif_cst.length + 6)))) (cfg.doneB crypto)
              (skip (cfg.ciphA crypto) (cfg.profile.verif_cst.length + 6)) sel cfg.itor_padauth_len,
              cfg.respAuth crypto sel, false) := by
      rw [Resp.parse, hfind, if_pos (by omega)]
      dsimp only
      rw [show cfg.resp.profile.verif_cst = cfg.profile.verif_cst from rfl, if_neg (by omega),
        hhead, decipher_eq, mask_mask]
      dsimp only
      rw [hverif, if_neg (not_not.2 rfl), hnego, readNego_bytesOf hfits.itor_padauth, hlenhead,
        hdrop]
      dsimp only
      rw [show cfg.itor_allowed &&& cfg.resp.profile.negoflag_allowed =
        cfg.itor_allowed &&& cfg.resp_allowed from rfl]
      show (match cfg.selected with
        | none => _
        | some sel => _) = _
      cases cfg.selected with
      | none => rfl
      | some sel =>
        have hclear : cnxauthClear cfg.resp sel = Cfg.head cfg.resp sel ++ cfg.respTail := by
          rw [cnxauthClear, Cfg.head, Cfg.respTail]
          simp only [List.append_assoc]
          rfl
        have hdone : skip (cfg.ciphB crypto) (Cfg.head cfg.resp sel ++ cfg.respTail).length =
            cfg.doneB crypto := by
          rw [List.length_append, Cfg.length_head]
          rfl
        dsimp only
        rw [Resp.buildCnxauthPkt, encipher_eq, hclear, hdone]
        rfl
    -- no method of the initiator is allowed, or the answer goes out and the padding is read
    cases hsel : cfg.selected with
    | none =>
      rw [hsel] at hparse
      exact Resp.loop_stop hparse
    | some sel =>
      rw [hsel] at hparse
      have htail := hb.drop (cfg.itor_padesta.length +
        (40 + (cfg.profile.verif_cst.length + 6)))
      rw [drop_itorAuth] at htail
      rw [Resp.loop_next hparse, resp_pad n htail, List.append_nil]

theorem resp_esta (hsync : cfg.Synced crypto) (hfits : cfg.Fits) (n : ℕ)
    (hr : r <+: cfg.itorEsta ++ (cfg.itorAuth crypto ++ p)) :
    Resp.loop crypto cfg.resp (n + 4) (.cnxestaWait r) = respAt crypto cfg r := by
  have hplain : ¬ plainbtSignature <+: r := by
    intro hsig
    refine hsync.not_plain (List.prefix_of_prefix_length_le (hsig.trans hr) ?_ ?_)
    · rw [← List.append_assoc]
      exact List.prefix_append _ _
    · rw [List.length_append, Cfg.length_itorAuth]
      show 20 ≤ _
      omega
  rw [respAt]
  split_ifs with hlen
  · apply Resp.loop_stop
    rw [Resp.parse]
    exact (if_neg hplain).trans (if_pos hlen)
  · rw [Cfg.itorEsta, List.append_assoc] at hr
    obtain ⟨htake, hrest⟩ := prefix_append_cut hr hfits.itor_len (Nat.not_lt.1 hlen)
    have hparse : Resp.parse crypto cfg.resp (.cnxestaWait r) =
        (.cnxauthWait (r.drop cfg.profile.dh_pubkey_len) (cfg.ciphB crypto) (cfg.ciphA crypto)
          (cfg.respMark crypto), [], false) := by
      rw [Resp.parse]
      refine (if_neg hplain).trans ((if_neg hlen).trans ?_)
      dsimp only
      rw [show cfg.resp.profile.dh_pubkey_len = cfg.profile.dh_pubkey_len from rfl, htake,
        ofUsg_usg, Cfg.resp_secret]
      rfl
    rw [Resp.loop_next hparse, resp_auth hsync hfits n hrest, List.nil_append]

/-- Before it has a connection; and before it knows what to select. -/
def respLen (cfg : Cfg) : ℕ :=
  cfg.profile.dh_pubkey_len + (cfg.itor_padesta.length +
    (40 + (cfg.profile.verif_cst.length + 6)) + (cfg.itor_padauth_len + 2))

def respHeadLen (cfg : Cfg) : ℕ :=
  cfg.profile.dh_pubkey_len +
    (cfg.itor_padesta.length + (40 + (cfg.profile.verif_cst.length + 6)))

/-- What it waits for from there on. -/
theorem drop_itorEsta (hfits : cfg.Fits) :
    (cfg.itorEsta ++ (cfg.itorAuth crypto ++ p)).drop (respHeadLen cfg) =
      mask crypto (skip (cfg.ciphA crypto) (cfg.profile.verif_cst.length + 6)) cfg.itorTail ++
        p := by
  rw [respHeadLen, ← List.drop_drop, Cfg.itorEsta, List.append_assoc,
    List.drop_left' hfits.itor_len, drop_itorAuth]

/-- A responder which has not selected yet. -/
theorem resp_notify_head (hsync : cfg.Synced crypto) (hfits : cfg.Fits)
    (hr : r.length < respHeadLen cfg)
    (hrc : r ++ c <+: cfg.itorEsta ++ (cfg.itorAuth crypto ++ p)) :
    ∃ out, (respAt crypto cfg r).1.notifyRecvedData crypto cfg.resp c =
        ((respAt crypto cfg (r ++ c)).1, out) ∧
      (respAt crypto cfg (r ++ c)).2 = (respAt crypto cfg r).2 ++ out := by
  rw [Resp.notifyRecvedData]
  by_cases hesta : r.length < cfg.profile.dh_pubkey_len
  · refine ⟨(respAt crypto cfg (r ++ c)).2, ?_, ?_⟩
    · rw [respAt, if_pos hesta]
      exact resp_esta hsync hfits 0 hrc
    · rw [respAt, respAt, if_pos hesta]
      rfl
  · have hdrop : (r ++ c).drop cfg.profile.dh_pubkey_len =
        r.drop cfg.profile.dh_pubkey_len ++ c :=
      List.drop_append_of_le_length (Nat.not_lt.1 hesta)
    have hrc' := hrc.drop cfg.profile.dh_pubkey_len
    rw [hdrop, Cfg.itorEsta, List.append_assoc, List.drop_left' hfits.itor_len] at hrc'
    have hesta' : ¬ (r ++ c).length < cfg.profile.dh_pubkey_len := by
      rw [List.length_append]
      omega
    rw [respAt, respAt, if_neg hesta, if_neg hesta', hdrop]
    generalize hb : r.drop cfg.profile.dh_pubkey_len = b at hrc' ⊢
    have hlenb : b.length <
        cfg.itor_padesta.length + (40 + (cfg.profile.verif_cst.length + 6)) := by
      rw [← hb, List.length_drop]
      rw [respHeadLen] at hr
      omega
    refine ⟨(respAuthAt crypto cfg (b ++ c)).2, ?_, ?_⟩
    · rw [respAuthAt, if_pos hlenb]
      exact resp_auth hsync hfits 1 hrc'
    · rw [respAuthAt, respAuthAt, if_pos hlenb]
      rfl

/-- One which has selected has the padding to wait for. -/
theorem respAt_of_selected (hsel : cfg.selected = some sel) (hr : respHeadLen cfg ≤ r.length) :
    respAt crypto cfg r =
      (respPadAt crypto cfg sel (r.drop (respHeadLen cfg)), cfg.respAuth crypto sel) := by
  rw [respHeadLen] at hr
  rw [respAt, if_neg (by omega), respAuthAt, if_neg (by rw [List.length_drop]; omega), hsel]
  dsimp only
  rw [List.drop_drop, respHeadLen]

/-- **The responder, one chunk after the other**, unless it selects nothing. -/
theorem resp_notify (hsync : cfg.Synced crypto) (hfits : cfg.Fits)
    (hsel : cfg.selected = some sel) (hr : r.length < respLen cfg)
    (hrc : r ++ c <+: cfg.itorEsta ++ (cfg.itorAuth crypto ++ p)) :
    ∃ out, (respAt crypto cfg r).1.notifyRecvedData crypto cfg.resp c =
        ((respAt crypto cfg (r ++ c)).1, out) ∧
      (respAt crypto cfg (r ++ c)).2 = (respAt crypto cfg r).2 ++ out := by
  by_cases hhead : r.length < respHeadLen cfg
  · exact resp_notify_head hsync hfits hhead hrc
  · -- the answer was sent
    rw [Nat.not_lt] at hhead
    have hdrop : (r ++ c).drop (respHeadLen cfg) = r.drop (respHeadLen cfg) ++ c :=
      List.drop_append_of_le_length hhead
    have hhead' : respHeadLen cfg ≤ (r ++ c).length := by
      rw [List.length_append]
      omega
    have hrest := hrc.drop (respHeadLen cfg)
    rw [hdrop, drop_itorEsta hfits] at hrest
    refine ⟨[], ?_, ?_⟩
    · rw [respAt_of_selected hsel hhead, respAt_of_selected hsel hhead', hdrop]
      dsimp only
      have hlen : (r.drop (respHeadLen cfg)).length < cfg.itor_padauth_len + 2 := by
        rw [List.length_drop]
        rw [respLen] at hr
        rw [respHeadLen] at hhead ⊢
        omega
      rw [Resp.notifyRecvedData, respPadAt, if_pos hlen]
      exact resp_pad 2 hrest
    · rw [respAt_of_selected hsel hhead, respAt_of_selected hsel hhead', List.append_nil]

end resp

/-! ### A sample -/

/-- A hash and a keystream with which everything can be computed. -/
def sampleCrypto : Crypto where
  sha1 datum := ⟨List.replicate 20 datum.sum, List.length_replicate⟩
  keystream key n := UInt8.ofNat n + key.sum

/-- Small keys, and a padding everywhere; only one of the sides allows plain data. -/
def sampleCfg : Cfg where
  profile := ⟨1, 251, 3, [0, 0], 0⟩
  itor_allowed := 3
  resp_allowed := 2
  cnx_shsecret := ⟨List.replicate 20 7, List.length_replicate⟩
  itor_privkey := 9
  resp_privkey := 4
  itor_padesta := [1, 2, 3]
  resp_padesta := [4]
  itor_padauth_len := 2
  resp_padauth_len := 1

theorem fits_sample : sampleCfg.Fits :=
  ⟨by decide +kernel, by decide +kernel, by decide +kernel, by decide +kernel, by decide +kernel⟩

theorem synced_sample : sampleCfg.Synced sampleCrypto :=
  ⟨by decide +kernel, by decide +kernel, by decide +kernel⟩

/-- Both sides of the sample. -/
def sampleStart : Pair :=
  ⟨.cnxestaWait [], .cnxestaWait [], sampleCfg.itorEsta, sampleCfg.respEsta, [], [], [], [], 0, 0⟩

end Neoip.Jamstd
