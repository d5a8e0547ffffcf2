/-
Neoip/JamstdRun.lean

The stream encryption, over whole runs of the two sides.

During the handshake a side is where the bytes it got say (`JamstdEst`).  After it, the
cipher by which a side deciphers is not the one by which it reads what came along with the
end of its handshake: these bytes were read once by the other cipher, which the sender uses
for its own data, and which they move.  So data which come along with the end of a handshake
are spoiled, and so is then all that is sent in the other direction (`deliver`).

Main results: `established`, `data_arrive`, and `refused` for sides which have no flag in
common.
-/
import Neoip.JamstdEst

namespace Neoip.Jamstd

open Jamrc4 (Crypto SkeyCiph xor_xor notifyRecvedData_ciph notifyRecvedData_plain)

variable {crypto : Crypto} {cfg : Cfg} {sel : UInt32}

/-! ### A connection -/

variable (crypto) in
/-- What is read of data of which `early` bytes came along with the end of the handshake: `X` and
`R` are the ciphers then, to transmit and to receive. -/
def arrive (sel : UInt32) (X R : SkeyCiph) (early data : Datum) : Datum :=
  if sel = negoflagArcfour then mask crypto X (mask crypto R early ++ data) else early ++ data

variable (crypto) in
/-- What is put on the wire, by a side whose handshake ended with `early` bytes of data. -/
def leave (sel : UInt32) (R : SkeyCiph) (early : ℕ) (sent : Datum) : Datum :=
  if sel = negoflagArcfour then mask crypto (skip R early) sent else sent

variable (crypto) in
/-- A connection which was given `early`, then `got`, and `sent`: what it has handed up is in
`up`, and what it put on the wire in `out`. -/
inductive FullAt (sel : UInt32) (X R : SkeyCiph) (early got sent up out : Datum) : Full → Prop
  | arcfour (read held : Datum) (hsel : sel = negoflagArcfour)
      (hread : read ++ held = mask crypto R early ++ got) (hup : up = mask crypto X read)
      (hout : out = mask crypto (skip R early.length) sent) :
      FullAt sel X R early got sent up out
        ⟨held, some (skip X read.length, skip R (early.length + sent.length))⟩
  | plaintext (held : Datum) (hsel : sel = negoflagPlaintext) (hread : up ++ held = early ++ got)
      (hout : out = sent) : FullAt sel X R early got sent up out ⟨held, none⟩

section full

variable {X R : SkeyCiph} {early got sent up out : Datum} {f : Full}

theorem plaintext_ne_arcfour : negoflagPlaintext ≠ negoflagArcfour := by decide

/-- What it hands up in the end. -/
theorem FullAt.arrive (h : FullAt crypto sel X R early got sent up out f) (wire : Datum) :
    up ++ (f.notifyRecvedData crypto wire).1 = arrive crypto sel X R early (got ++ wire) := by
  cases h with
  | arcfour read held hsel hread hup hout =>
    rw [notifyRecvedData_ciph, Jamstd.arrive, if_pos hsel, ← List.append_assoc, ← hread, hup,
      List.append_assoc, mask_append]
    rfl
  | plaintext held hsel hread hout =>
    rw [notifyRecvedData_plain, Jamstd.arrive, if_neg (hsel ▸ plaintext_ne_arcfour),
      ← List.append_assoc, hread, List.append_assoc]

theorem FullAt.out_eq (h : FullAt crypto sel X R early got sent up out f) :
    out = leave crypto sel R early.length sent := by
  cases h with
  | arcfour read held hsel hread hup hout => rw [leave, if_pos hsel, hout]
  | plaintext held hsel hread hout => rw [leave, if_neg (hsel ▸ plaintext_ne_arcfour), hout]

theorem FullAt.ciph (h : FullAt crypto sel X R early got sent up out f) :
    f.ciph.isSome = true ↔ sel = negoflagArcfour := by
  cases h with
  | arcfour read held hsel => exact iff_of_true rfl hsel
  | plaintext held hsel => exact iff_of_false (by simp) (hsel ▸ plaintext_ne_arcfour)

theorem FullAt.recv (h : FullAt crypto sel X R early got sent up out f) (pkt : Datum) :
    FullAt crypto sel X R early (got ++ pkt) sent (up ++ (f.notifyRecvedData crypto pkt).1) out
      (f.notifyRecvedData crypto pkt).2 := by
  cases h with
  | arcfour read held hsel hread hup hout =>
    rw [notifyRecvedData_ciph]
    have hskip : ({ skip X read.length with
        pos := (skip X read.length).pos + (held ++ pkt).length } : SkeyCiph) =
          skip X (read ++ (held ++ pkt)).length := by
      rw [@List.length_append _ read (held ++ pkt), ← skip_skip]
      rfl
    dsimp only
    rw [hskip]
    refine .arcfour (read ++ (held ++ pkt)) [] hsel ?_ ?_ hout
    · rw [List.append_nil, ← List.append_assoc, hread, List.append_assoc]
    · rw [hup, mask_append]
      rfl
  | plaintext held hsel hread hout =>
    rw [notifyRecvedData_plain]
    refine .plaintext [] hsel ?_ hout
    rw [List.append_nil, ← List.append_assoc, hread, List.append_assoc]

theorem FullAt.send (h : FullAt crypto sel X R early got sent up out f) (data : Datum) :
    FullAt crypto sel X R early got (sent ++ data) up (out ++ (f.notifyToxmitData crypto data).1)
      (f.notifyToxmitData crypto data).2 := by
  cases h with
  | arcfour read held hsel hread hup hout =>
    show FullAt crypto sel X R early got (sent ++ data) up
      (out ++ mask crypto (skip R (early.length + sent.length)) data)
      ⟨held, some (skip X read.length, skip (skip R (early.length + sent.length)) data.length)⟩
    have hskip : skip (skip R (early.length + sent.length)) data.length =
        skip R (early.length + (sent ++ data).length) := by
      rw [skip_skip, List.length_append, Nat.add_assoc]
    rw [hskip]
    refine .arcfour read held hsel hread hup ?_
    rw [hout, mask_append, skip_skip]
  | plaintext held hsel hread hout =>
    exact .plaintext held hsel hread (congrArg (· ++ data) hout)

/-- At the end of the handshake. -/
theorem fullAt_establish (hsel : sel = negoflagArcfour ∨ sel = negoflagPlaintext) :
    ∃ f, establish crypto sel X R [] early = some f ∧ f.init_recvbuf.length = early.length ∧
      FullAt crypto sel X R early [] [] [] [] f := by
  rcases hsel with rfl | rfl
  · exact ⟨⟨mask crypto R early, some (X, skip R early.length)⟩, rfl, length_mask,
      .arcfour [] (mask crypto R early) rfl (List.append_nil _).symm rfl rfl⟩
  · exact ⟨⟨early, none⟩, rfl, rfl, .plaintext early rfl (List.append_nil _).symm rfl⟩

end full

/-! ### A side -/

variable (crypto) in
/-- A side which got `r` in its handshake and `got` since, and put `raw` on the wire behind its
first packet.  `len` and `auth` are of its handshake; `waiting` and `full` say what its state is. -/
inductive SideOk (sel : UInt32) (X R : SkeyCiph) (len : ℕ) (auth xmit : Datum) (waiting : Prop)
    (full : Full → Prop) (r got raw sent up : Datum) (early : ℕ) : Prop
  | waiting (hstate : waiting) (hlen : r.length < len) (hgot : got = []) (hraw : raw = xmit)
      (hsent : sent = []) (hup : up = []) (hearly : early = 0)
  | full (f : Full) (out : Datum) (hstate : full f) (hlen : len ≤ r.length)
      (hfull : FullAt crypto sel X R (r.drop len) got sent up out f) (hraw : raw = auth ++ out)
      (hearly : early = (r.drop len).length)

variable (crypto cfg sel) in
def ItorOk (s : Pair) (r got raw : Datum) : Prop :=
  SideOk crypto sel (cfg.doneA crypto) (cfg.doneB crypto) (itorLen cfg) (cfg.itorAuth crypto)
    (itorAt crypto cfg sel r).2 (s.itor = (itorAt crypto cfg sel r).1) (fun f => s.itor = .full f)
    r got raw s.itorSent s.itorGot s.itorEarly

variable (crypto cfg sel) in
def RespOk (s : Pair) (r got raw : Datum) : Prop :=
  SideOk crypto sel (cfg.doneB crypto) (cfg.doneA crypto) (respLen cfg) (cfg.respAuth crypto sel)
    (respAt crypto cfg r).2 (s.resp = (respAt crypto cfg r).1) (fun f => s.resp = .full f)
    r got raw s.respSent s.respGot s.respEarly

section at_len

variable {r : Datum}

theorem itorAt_snd : (itorAt crypto cfg sel r).2 = [] ∨
    (itorAt crypto cfg sel r).2 = cfg.itorAuth crypto := by
  rw [itorAt]
  split_ifs
  · exact .inl rfl
  · exact .inr rfl

variable (crypto sel) in
theorem itorAt_waiting (h : r.length < itorLen cfg) : (itorAt crypto cfg sel r).1 ≠ .failed ∧
    (itorAt crypto cfg sel r).1 ≠ .aborted ∧ ∀ f, (itorAt crypto cfg sel r).1 ≠ .full f := by
  rw [itorLen] at h
  rw [itorAt]
  split_ifs with hesta
  · simp
  · dsimp only
    rw [itorAuthAt]
    split_ifs with hauth
    · simp
    · rw [itorPadAt, if_pos]
      · simp
      · rw [List.length_drop] at hauth ⊢
        rw [List.length_drop]
        omega

theorem itorAt_full (hsel : sel = negoflagArcfour ∨ sel = negoflagPlaintext)
    (h : itorLen cfg ≤ r.length) : ∃ f, (itorAt crypto cfg sel r).1 = .full f ∧
      (itorAt crypto cfg sel r).2 = cfg.itorAuth crypto ∧
      f.init_recvbuf.length = (r.drop (itorLen cfg)).length ∧
      FullAt crypto sel (cfg.doneA crypto) (cfg.doneB crypto) (r.drop (itorLen cfg)) [] [] [] []
        f := by
  obtain ⟨f, hf, hinit, hfull⟩ := @fullAt_establish crypto sel (cfg.doneA crypto)
    (cfg.doneB crypto) (r.drop (itorLen cfg)) hsel
  refine ⟨f, ?_, ?_, hinit, hfull⟩
  · rw [itorLen] at h
    rw [itorAt, if_neg (by omega), itorAuthAt, if_neg (by rw [List.length_drop]; omega), itorPadAt,
      if_neg (by rw [List.length_drop, List.length_drop]; omega), List.drop_drop, List.drop_drop]
    dsimp only
    rw [itorLen] at hf
    rw [hf]
  · rw [itorLen] at h
    rw [itorAt, if_neg (by omega)]

theorem respAt_snd (hsel : cfg.selected = some sel) : (respAt crypto cfg r).2 = [] ∨
    (respAt crypto cfg r).2 = cfg.respAuth crypto sel := by
  rw [respAt]
  split_ifs
  · exact .inl rfl
  · rw [respAuthAt, hsel]
    split_ifs
    · exact .inl rfl
    · exact .inr rfl

variable (crypto) in
theorem respAt_waiting_head (h : r.length < respHeadLen cfg) : (respAt crypto cfg r).1 ≠ .failed ∧
    (respAt crypto cfg r).1 ≠ .aborted ∧ ∀ f, (respAt crypto cfg r).1 ≠ .full f := by
  rw [respHeadLen] at h
  rw [respAt]
  split_ifs with hesta
  · simp
  · rw [respAuthAt, if_pos (by rw [List.length_drop]; omega)]
    simp

variable (crypto) in
theorem respAt_waiting (hsel : cfg.selected = some sel) (h : r.length < respLen cfg) :
    (respAt crypto cfg r).1 ≠ .failed ∧ (respAt crypto cfg r).1 ≠ .aborted ∧
      ∀ f, (respAt crypto cfg r).1 ≠ .full f := by
  by_cases hhead : r.length < respHeadLen cfg
  · exact respAt_waiting_head crypto hhead
  · rw [Nat.not_lt] at hhead
    rw [respAt_of_selected hsel hhead, respPadAt, if_pos]
    · simp
    · rw [List.length_drop]
      rw [respHeadLen] at hhead ⊢
      rw [respLen] at h
      omega

theorem respAt_full (hsel : sel = negoflagArcfour ∨ sel = negoflagPlaintext)
    (hselected : cfg.selected = some sel) (h : respLen cfg ≤ r.length) :
    ∃ f, (respAt crypto cfg r).1 = .full f ∧
      (respAt crypto cfg r).2 = cfg.respAuth crypto sel ∧
      f.init_recvbuf.length = (r.drop (respLen cfg)).length ∧
      FullAt crypto sel (cfg.doneB crypto) (cfg.doneA crypto) (r.drop (respLen cfg)) [] [] [] []
        f := by
  obtain ⟨f, hf, hinit, hfull⟩ := @fullAt_establish crypto sel (cfg.doneB crypto)
    (cfg.doneA crypto) (r.drop (respLen cfg)) hsel
  have hhead : respHeadLen cfg ≤ r.length := by
    rw [respLen] at h
    rw [respHeadLen]
    omega
  have hdrop : (r.drop (respHeadLen cfg)).drop (cfg.itor_padauth_len + 2) =
      r.drop (respLen cfg) := by
    rw [List.drop_drop, respHeadLen, respLen]
    congr 1
    omega
  refine ⟨f, ?_, by rw [respAt_of_selected hselected hhead], hinit, hfull⟩
  rw [respAt_of_selected hselected hhead, respPadAt, if_neg, hdrop, hf]
  rw [List.length_drop]
  rw [respLen] at h
  rw [respHeadLen] at hhead ⊢
  omega

end at_len

/-! ### Steps -/

theorem Itor.early_of_not_full {itor : Itor} (h : ∀ f, itor ≠ .full f) : itor.early = 0 := by
  cases itor with
  | full f => exact absurd rfl (h f)
  | _ => rfl

theorem Resp.early_of_not_full {resp : Resp} (h : ∀ f, resp ≠ .full f) : resp.early = 0 := by
  cases resp with
  | full f => exact absurd rfl (h f)
  | _ => rfl

section step

variable {s : Pair} {f : Full}

theorem step_itorRecv_waiting {itor : Itor} {out : Datum} (len : ℕ)
    (h : s.itor ≠ .failed ∧ s.itor ≠ .aborted ∧ ∀ f, s.itor ≠ .full f)
    (hnotify : s.itor.notifyRecvedData crypto cfg.itor (s.r2i.take len) = (itor, out)) :
    step crypto cfg s (.itorRecv len) =
      { s with
        itor := itor
        r2i := s.r2i.drop len
        i2r := s.i2r ++ out
        itorEarly := itor.early } := by
  obtain ⟨hfailed, haborted, hfull⟩ := h
  rw [step]
  dsimp only
  cases hitor : s.itor with
  | failed => exact absurd hitor hfailed
  | aborted => exact absurd hitor haborted
  | full f => exact absurd hitor (hfull f)
  | _ =>
    rw [hitor] at hnotify
    dsimp only
    rw [hnotify]

theorem step_itorRecv_full (len : ℕ) (h : s.itor = .full f) :
    step crypto cfg s (.itorRecv len) =
      { s with
        itor := .full (f.notifyRecvedData crypto (s.r2i.take len)).2
        r2i := s.r2i.drop len
        itorGot := s.itorGot ++ (f.notifyRecvedData crypto (s.r2i.take len)).1 } := by
  rw [step]
  dsimp only
  rw [h]

theorem step_respRecv_waiting {resp : Resp} {out : Datum} (len : ℕ)
    (h : s.resp ≠ .failed ∧ s.resp ≠ .aborted ∧ ∀ f, s.resp ≠ .full f)
    (hnotify : s.resp.notifyRecvedData crypto cfg.resp (s.i2r.take len) = (resp, out)) :
    step crypto cfg s (.respRecv len) =
      { s with
        resp := resp
        i2r := s.i2r.drop len
        r2i := s.r2i ++ out
        respEarly := resp.early } := by
  obtain ⟨hfailed, haborted, hfull⟩ := h
  rw [step]
  dsimp only
  cases hresp : s.resp with
  | failed => exact absurd hresp hfailed
  | aborted => exact absurd hresp haborted
  | full f => exact absurd hresp (hfull f)
  | _ =>
    rw [hresp] at hnotify
    dsimp only
    rw [hnotify]

theorem step_respRecv_full (len : ℕ) (h : s.resp = .full f) :
    step crypto cfg s (.respRecv len) =
      { s with
        resp := .full (f.notifyRecvedData crypto (s.i2r.take len)).2
        i2r := s.i2r.drop len
        respGot := s.respGot ++ (f.notifyRecvedData crypto (s.i2r.take len)).1 } := by
  rw [step]
  dsimp only
  rw [h]

theorem step_itorSend_waiting (data : Datum) (h : ∀ f, s.itor ≠ .full f) :
    step crypto cfg s (.itorSend data) = s := by
  rw [step]
  cases hitor : s.itor with
  | full f => exact absurd hitor (h f)
  | _ => rfl

theorem step_itorSend_full (data : Datum) (h : s.itor = .full f) :
    step crypto cfg s (.itorSend data) =
      { s with
        itor := .full (f.notifyToxmitData crypto data).2
        i2r := s.i2r ++ (f.notifyToxmitData crypto data).1
        itorSent := s.itorSent ++ data } := by
  rw [step]
  dsimp only
  rw [h]

theorem step_respSend_waiting (data : Datum) (h : ∀ f, s.resp ≠ .full f) :
    step crypto cfg s (.respSend data) = s := by
  rw [step]
  cases hresp : s.resp with
  | full f => exact absurd hresp (h f)
  | _ => rfl

theorem step_respSend_full (data : Datum) (h : s.resp = .full f) :
    step crypto cfg s (.respSend data) =
      { s with
        resp := .full (f.notifyToxmitData crypto data).2
        r2i := s.r2i ++ (f.notifyToxmitData crypto data).1
        respSent := s.respSent ++ data } := by
  rw [step]
  dsimp only
  rw [h]

end step

/-! ### Every run -/

variable (crypto cfg sel) in
/-- Each side is where the bytes it got say; they and those under way are what the other sent. -/
def Inv (s : Pair) : Prop :=
  ∃ r got raw r' got' raw', ItorOk crypto cfg sel s r got raw ∧
    RespOk crypto cfg sel s r' got' raw' ∧
      r ++ (got ++ s.r2i) = cfg.respEsta ++ raw' ∧ r' ++ (got' ++ s.i2r) = cfg.itorEsta ++ raw

section inv

variable {s s₀ : Pair}

/-- What a side sent is its packet and what follows it. -/
theorem SideOk.raw_prefix {X R : SkeyCiph} {len early : ℕ} {waiting : Prop} {full : Full → Prop}
    {auth xmit r got raw sent up : Datum}
    (h : SideOk crypto sel X R len auth xmit waiting full r got raw sent up early)
    (hxmit : xmit = [] ∨ xmit = auth) : ∃ p, raw <+: auth ++ p := by
  cases h with
  | waiting _ _ _ hraw =>
    rw [hraw]
    rcases hxmit with rfl | rfl
    · exact ⟨[], List.nil_prefix⟩
    · exact ⟨[], List.prefix_append _ _⟩
  | full f out _ _ _ hraw => exact ⟨out, hraw ▸ List.prefix_rfl⟩

/-- What a side got of a chunk, and what is left of it. -/
theorem chunk_append {r wire sent : Datum} (len : ℕ) (h : r ++ wire = sent) :
    r ++ wire.take len <+: sent ∧ (r ++ wire.take len) ++ wire.drop len = sent := by
  have heq : (r ++ wire.take len) ++ wire.drop len = sent := by
    rw [List.append_assoc, List.take_append_drop, h]
  exact ⟨⟨wire.drop len, heq⟩, heq⟩

/-- A side which is where the bytes of its handshake say, and has done nothing else yet. -/
theorem itorOk_at {r : Datum} (hmode : sel = negoflagArcfour ∨ sel = negoflagPlaintext)
    (hstate : s.itor = (itorAt crypto cfg sel r).1) (hsent : s.itorSent = [])
    (hup : s.itorGot = []) (hearly : s.itorEarly = s.itor.early) :
    ItorOk crypto cfg sel s r [] (itorAt crypto cfg sel r).2 := by
  rw [hstate] at hearly
  rw [ItorOk, hsent, hup, hearly]
  by_cases hlen : r.length < itorLen cfg
  · exact .waiting hstate hlen rfl rfl rfl rfl
      (Itor.early_of_not_full (itorAt_waiting crypto sel hlen).2.2)
  · obtain ⟨f, hf, hauth, hinit, hfull⟩ := itorAt_full hmode (Nat.not_lt.1 hlen)
    rw [hf, hauth]
    exact .full f [] (hstate.trans hf) (Nat.not_lt.1 hlen) hfull (List.append_nil _).symm hinit

theorem respOk_at {r : Datum} (hmode : sel = negoflagArcfour ∨ sel = negoflagPlaintext)
    (hselected : cfg.selected = some sel) (hstate : s.resp = (respAt crypto cfg r).1)
    (hsent : s.respSent = []) (hup : s.respGot = []) (hearly : s.respEarly = s.resp.early) :
    RespOk crypto cfg sel s r [] (respAt crypto cfg r).2 := by
  rw [hstate] at hearly
  rw [RespOk, hsent, hup, hearly]
  by_cases hlen : r.length < respLen cfg
  · exact .waiting hstate hlen rfl rfl rfl rfl
      (Resp.early_of_not_full (respAt_waiting crypto hselected hlen).2.2)
  · obtain ⟨f, hf, hauth, hinit, hfull⟩ := respAt_full hmode hselected (Nat.not_lt.1 hlen)
    rw [hf, hauth]
    exact .full f [] (hstate.trans hf) (Nat.not_lt.1 hlen) hfull (List.append_nil _).symm hinit

theorem Inv.itorRecv (hsync : cfg.Synced crypto) (hfits : cfg.Fits)
    (hmode : sel = negoflagArcfour ∨ sel = negoflagPlaintext)
    (hallowed : cfg.itor_allowed &&& sel = sel) (hselected : cfg.selected = some sel)
    (h : Inv crypto cfg sel s) (len : ℕ) :
    Inv crypto cfg sel (step crypto cfg s (.itorRecv len)) := by
  obtain ⟨r, got, raw, r', got', raw', hitor, hresp, hr2i, hi2r⟩ := h
  cases hitor with
  | waiting hstate hlen hgot hraw hsent hup hearly =>
    subst hgot
    rw [List.nil_append] at hr2i
    obtain ⟨p, hp⟩ := SideOk.raw_prefix hresp (respAt_snd hselected)
    obtain ⟨hpre, hrest⟩ := chunk_append len hr2i
    obtain ⟨out, hnotify, hout⟩ := itor_notify hsync hfits hallowed hlen
      (hpre.trans (List.prefix_append_right_inj _ |>.2 hp))
    have hwaiting := itorAt_waiting crypto sel hlen
    rw [← hstate] at hnotify hwaiting
    rw [step_itorRecv_waiting len hwaiting hnotify]
    have hi2r' : r' ++ (got' ++ (s.i2r ++ out)) = cfg.itorEsta ++ (raw ++ out) := by
      rw [← List.append_assoc got', ← List.append_assoc, hi2r, List.append_assoc]
    rw [hraw, ← hout] at hi2r'
    exact ⟨r ++ s.r2i.take len, [], _, r', got', raw', itorOk_at hmode rfl hsent hup rfl, hresp,
      hrest, hi2r'⟩
  | full f out hstate hlen hfull hraw hearly =>
    rw [step_itorRecv_full len hstate]
    refine ⟨r, got ++ s.r2i.take len, raw, r', got', raw', ?_, hresp, ?_, hi2r⟩
    · exact .full _ out rfl hlen (hfull.recv _) hraw hearly
    · rw [← hr2i, List.append_assoc got, List.take_append_drop]

theorem Inv.respRecv (hsync : cfg.Synced crypto) (hfits : cfg.Fits)
    (hmode : sel = negoflagArcfour ∨ sel = negoflagPlaintext) (hselected : cfg.selected = some sel)
    (h : Inv crypto cfg sel s) (len : ℕ) :
    Inv crypto cfg sel (step crypto cfg s (.respRecv len)) := by
  obtain ⟨r, got, raw, r', got', raw', hitor, hresp, hr2i, hi2r⟩ := h
  cases hresp with
  | waiting hstate hlen hgot hraw hsent hup hearly =>
    subst hgot
    rw [List.nil_append] at hi2r
    obtain ⟨p, hp⟩ := SideOk.raw_prefix hitor itorAt_snd
    obtain ⟨hpre, hrest⟩ := chunk_append len hi2r
    obtain ⟨out, hnotify, hout⟩ := resp_notify hsync hfits hselected hlen
      (hpre.trans (List.prefix_append_right_inj _ |>.2 hp))
    have hwaiting := respAt_waiting crypto hselected hlen
    rw [← hstate] at hnotify hwaiting
    rw [step_respRecv_waiting len hwaiting hnotify]
    have hr2i' : r ++ (got ++ (s.r2i ++ out)) = cfg.respEsta ++ (raw' ++ out) := by
      rw [← List.append_assoc got, ← List.append_assoc, hr2i, List.append_assoc]
    rw [hraw, ← hout] at hr2i'
    exact ⟨r, got, raw, r' ++ s.i2r.take len, [], _, hitor,
      respOk_at hmode hselected rfl hsent hup rfl, hr2i', hrest⟩
  | full f out hstate hlen hfull hraw hearly =>
    rw [step_respRecv_full len hstate]
    refine ⟨r, got, raw, r', got' ++ s.i2r.take len, raw', hitor, ?_, hr2i, ?_⟩
    · exact .full _ out rfl hlen (hfull.recv _) hraw hearly
    · rw [← hi2r, List.append_assoc got', List.take_append_drop]

theorem Inv.itorSend (h : Inv crypto cfg sel s) (data : Datum) :
    Inv crypto cfg sel (step crypto cfg s (.itorSend data)) := by
  obtain ⟨r, got, raw, r', got', raw', hitor, hresp, hr2i, hi2r⟩ := h
  cases hitor with
  | waiting hstate hlen hgot hraw hsent hup hearly =>
    have hwaiting := (itorAt_waiting crypto sel hlen).2.2
    rw [← hstate] at hwaiting
    rw [step_itorSend_waiting data hwaiting]
    exact ⟨r, got, raw, r', got', raw', .waiting hstate hlen hgot hraw hsent hup hearly, hresp,
      hr2i, hi2r⟩
  | full f out hstate hlen hfull hraw hearly =>
    rw [step_itorSend_full data hstate]
    refine ⟨r, got, _, r', got', raw', .full _ _ rfl hlen (hfull.send data) rfl hearly, hresp,
      hr2i, ?_⟩
    rw [← List.append_assoc got', ← List.append_assoc, hi2r, hraw, List.append_assoc,
      List.append_assoc]

theorem Inv.respSend (hselected : cfg.selected = some sel) (h : Inv crypto cfg sel s)
    (data : Datum) : Inv crypto cfg sel (step crypto cfg s (.respSend data)) := by
  obtain ⟨r, got, raw, r', got', raw', hitor, hresp, hr2i, hi2r⟩ := h
  cases hresp with
  | waiting hstate hlen hgot hraw hsent hup hearly =>
    have hwaiting := (respAt_waiting crypto hselected hlen).2.2
    rw [← hstate] at hwaiting
    rw [step_respSend_waiting data hwaiting]
    exact ⟨r, got, raw, r', got', raw', hitor, .waiting hstate hlen hgot hraw hsent hup hearly,
      hr2i, hi2r⟩
  | full f out hstate hlen hfull hraw hearly =>
    rw [step_respSend_full data hstate]
    refine ⟨r, got, raw, r', got', _, hitor, .full _ _ rfl hlen (hfull.send data) rfl hearly, ?_,
      hi2r⟩
    rw [← List.append_assoc got, ← List.append_assoc, hr2i, hraw, List.append_assoc,
      List.append_assoc]

/-- A flag which both sides allow, as far as one of them goes. -/
theorem and_eq_of_and_and {a b m : UInt32} {i : ℕ} (hm : m.toNat = 2 ^ i)
    (h : a &&& b &&& m ≠ 0) : a &&& m = m := by
  rw [← UInt32.toNat_inj, UInt32.toNat_and, hm, Nat.and_two_pow]
  cases hbit : a.toNat.testBit i with
  | true => exact Nat.one_mul _
  | false =>
    refine absurd ?_ h
    rw [← UInt32.toNat_inj, UInt32.toNat_and, UInt32.toNat_and, hm, Nat.and_two_pow,
      Nat.testBit_and, hbit]
    exact Nat.zero_mul _

/-- What is selected was proposed, and is one of the two. -/
theorem select_spec (h : cfg.selected = some sel) : cfg.itor_allowed &&& sel = sel ∧
    (sel = negoflagArcfour ∨ sel = negoflagPlaintext) := by
  rw [Cfg.selected, select] at h
  split_ifs at h with harcfour hplaintext
  · obtain rfl := Option.some.inj h
    exact ⟨and_eq_of_and_and (show _ = 2 ^ 1 from rfl) harcfour, .inl rfl⟩
  · obtain rfl := Option.some.inj h
    exact ⟨and_eq_of_and_and (show _ = 2 ^ 0 from rfl) hplaintext, .inr rfl⟩

theorem start_eq (hfits : cfg.Fits) (h : start cfg = some s₀) :
    s₀ = ⟨.cnxestaWait [], .cnxestaWait [], cfg.itorEsta, cfg.respEsta, [], [], [], [], 0, 0⟩ := by
  have hitor : buildCnxestaPkt cfg.itor = some cfg.itorEsta := if_pos hfits.itor_len
  have hresp : buildCnxestaPkt cfg.resp = some cfg.respEsta := if_pos hfits.resp_len
  rw [start, hitor, hresp] at h
  exact (Option.some.inj h).symm

theorem itorAt_nil (hfits : cfg.Fits) : itorAt crypto cfg sel [] = (.cnxestaWait [], []) := by
  rw [itorAt]
  exact if_pos hfits.pubkey_pos

theorem respAt_nil (hfits : cfg.Fits) : respAt crypto cfg [] = (.cnxestaWait [], []) := by
  rw [respAt]
  exact if_pos hfits.pubkey_pos

theorem inv_start (hfits : cfg.Fits) (hselected : cfg.selected = some sel)
    (hstart : start cfg = some s₀) : Inv crypto cfg sel s₀ := by
  have hmode := (select_spec hselected).2
  rw [start_eq hfits hstart]
  refine ⟨[], [], _, [], [], _, itorOk_at hmode ?_ rfl rfl rfl,
    respOk_at hmode hselected ?_ rfl rfl rfl, ?_, ?_⟩
  · rw [itorAt_nil hfits]
  · rw [respAt_nil hfits]
  · rw [respAt_nil hfits, List.append_nil]
    rfl
  · rw [itorAt_nil hfits, List.append_nil]
    rfl

theorem inv_run (hsync : cfg.Synced crypto) (hfits : cfg.Fits) (hselected : cfg.selected = some sel)
    (hstart : start cfg = some s₀) (evs : List Event) :
    Inv crypto cfg sel (run (step crypto cfg) s₀ evs) := by
  obtain ⟨hallowed, hmode⟩ := select_spec hselected
  refine run_invariant (fun s e h => ?_) (inv_start hfits hselected hstart) evs
  cases e with
  | itorRecv len => exact h.itorRecv hsync hfits hmode hallowed hselected len
  | respRecv len => exact h.respRecv hsync hfits hmode hselected len
  | itorSend data => exact h.itorSend data
  | respSend data => exact h.respSend hselected data

end inv

/-! ### The handshake -/

/-- Both sides have a connection once everything arrived, of the mode which was selected, and
neither fails. -/
structure Established (sel : UInt32) (s : Pair) : Prop where
  itor_ok : s.itor ≠ .failed ∧ s.itor ≠ .aborted
  resp_ok : s.resp ≠ .failed ∧ s.resp ≠ .aborted
  both : s.i2r = [] → s.r2i = [] → (∃ f, s.itor = .full f) ∧ ∃ f, s.resp = .full f
  mode : ∀ f, s.itor = .full f ∨ s.resp = .full f →
    (f.ciph.isSome = true ↔ sel = negoflagArcfour)

section established

variable {s s₀ : Pair} {r got raw r' got' raw' : Datum}

variable (crypto) in
theorem length_itorSide (hfits : cfg.Fits) :
    (cfg.itorEsta ++ cfg.itorAuth crypto).length = respLen cfg := by
  rw [List.length_append, Cfg.itorEsta, List.length_append, hfits.itor_len, Cfg.length_itorAuth,
    respLen]
  omega

variable (crypto sel) in
theorem length_respSide (hfits : cfg.Fits) :
    (cfg.respEsta ++ cfg.respAuth crypto sel).length = itorLen cfg := by
  rw [List.length_append, Cfg.respEsta, List.length_append, hfits.resp_len, Cfg.length_respAuth,
    itorLen]
  omega

/-- An initiator which got the first packet of the responder has sent its second one. -/
theorem itorAt_snd_of_esta (hfits : cfg.Fits) (h : cfg.respEsta.length ≤ r.length) :
    (itorAt crypto cfg sel r).2 = cfg.itorAuth crypto := by
  rw [Cfg.respEsta, List.length_append, hfits.resp_len] at h
  rw [itorAt, if_neg (by omega)]

theorem Inv.isEstablished (hfits : cfg.Fits) (hselected : cfg.selected = some sel)
    (h : Inv crypto cfg sel s) : Established sel s := by
  obtain ⟨r, got, raw, r', got', raw', hitor, hresp, hr2i, hi2r⟩ := h
  refine ⟨?_, ?_, fun hi2r_nil hr2i_nil => ?_, ?_⟩
  · cases hitor with
    | waiting hstate hlen =>
      rw [hstate]
      exact ⟨(itorAt_waiting crypto sel hlen).1, (itorAt_waiting crypto sel hlen).2.1⟩
    | full f out hstate =>
      rw [hstate]
      simp
  · cases hresp with
    | waiting hstate hlen =>
      rw [hstate]
      exact ⟨(respAt_waiting crypto hselected hlen).1, (respAt_waiting crypto hselected hlen).2.1⟩
    | full f out hstate =>
      rw [hstate]
      simp
  · have hlenI := length_itorSide crypto hfits
    have hlenR := length_respSide crypto sel hfits
    rw [List.length_append] at hlenI hlenR
    rw [hr2i_nil, List.append_nil] at hr2i
    rw [hi2r_nil, List.append_nil] at hi2r
    have hr2i_len := congrArg List.length hr2i
    have hi2r_len := congrArg List.length hi2r
    rw [List.length_append, List.length_append] at hr2i_len hi2r_len
    -- a side which waits has got less than the other one has sent
    have hresp_full : raw.length ≥ (cfg.itorAuth crypto).length → ∃ f, s.resp = .full f := by
      intro hraw
      cases hresp with
      | waiting _ hlen hgot =>
        rw [hgot, List.length_nil] at hi2r_len
        omega
      | full f _ hstate => exact ⟨f, hstate⟩
    cases hitor with
    | full f out hstate _ _ hraw =>
      refine ⟨⟨f, hstate⟩, hresp_full ?_⟩
      rw [hraw, List.length_append]
      exact Nat.le_add_right _ _
    | waiting hstate hlen hgot hraw =>
      rw [hgot, List.length_nil] at hr2i_len
      rw [itorAt_snd_of_esta hfits (by omega)] at hraw
      obtain ⟨f, hf⟩ := hresp_full (by rw [hraw])
      -- the responder has answered, so the answer arrived
      exfalso
      cases hresp with
      | waiting hstate' hlen' =>
        exact (respAt_waiting crypto hselected hlen').2.2 f (hstate'.symm.trans hf)
      | full f' out _ _ _ hraw' =>
        rw [hraw', List.length_append] at hr2i_len
        omega
  · rintro f (hf | hf)
    · cases hitor with
      | waiting hstate hlen =>
        exact absurd (hstate.symm.trans hf) ((itorAt_waiting crypto sel hlen).2.2 f)
      | full f' out hstate _ hfull =>
        obtain rfl := Itor.full.inj (hstate.symm.trans hf)
        exact hfull.ciph
    · cases hresp with
      | waiting hstate hlen =>
        exact absurd (hstate.symm.trans hf) ((respAt_waiting crypto hselected hlen).2.2 f)
      | full f' out hstate _ hfull =>
        obtain rfl := Resp.full.inj (hstate.symm.trans hf)
        exact hfull.ciph

/-- **The handshake succeeds** whatever the chunks are: in every run neither side fails, both have
a connection once everything arrived, and it is enciphered on both sides or on none, as the flags
which both allow say. -/
theorem established (hsync : cfg.Synced crypto) (hfits : cfg.Fits)
    (hselected : cfg.selected = some sel) (hstart : start cfg = some s₀) (evs : List Event) :
    Established sel (run (step crypto cfg) s₀ evs) :=
  (inv_run hsync hfits hselected hstart evs).isEstablished hfits hselected

/-- In chunks which cut the packets anywhere. -/
theorem established_sample :
    let s := run (step sampleCrypto sampleCfg) sampleStart
      [.respRecv 3, .itorRecv 1, .respRecv 30, .itorRecv 9, .respRecv 100, .itorRecv 100]
    Established negoflagArcfour s ∧ s.i2r = [] ∧ s.r2i = [] :=
  ⟨established synced_sample fits_sample (by decide +kernel) (by decide +kernel) _,
    by decide +kernel, by decide +kernel⟩

end established

/-! ### The data -/

variable (crypto) in
/-- What is read, of the data `sent`, by a side whose handshake ended with `early` bytes of them,
when the one of the sender did with `early'` bytes. -/
def deliver (sel : UInt32) (X R : SkeyCiph) (early early' : ℕ) (sent : Datum) : Datum :=
  arrive crypto sel X R ((leave crypto sel X early' sent).take early)
    ((leave crypto sel X early' sent).drop early)

theorem deliver_plaintext (hsel : sel = negoflagPlaintext) {X R : SkeyCiph} {early early' : ℕ}
    {sent : Datum} : deliver crypto sel X R early early' sent = sent := by
  have hne : sel ≠ negoflagArcfour := hsel ▸ plaintext_ne_arcfour
  rw [deliver, leave, if_neg hne, arrive, if_neg hne, List.take_append_drop]

theorem deliver_zero {X R : SkeyCiph} {sent : Datum} (hsel : sel = negoflagArcfour) :
    deliver crypto sel X R 0 0 sent = sent := by
  rw [deliver, leave, if_pos hsel, arrive, if_pos hsel, skip_zero, List.take_zero, List.drop_zero,
    mask_nil, List.nil_append, mask_mask]

variable (crypto cfg sel) in
/-- What each side has handed up, with what it would of the bytes under way. -/
structure Delivers (s : Pair) : Prop where
  itorToResp : ∀ f, s.resp = .full f → s.respGot ++ (f.notifyRecvedData crypto s.i2r).1 =
    deliver crypto sel (cfg.doneB crypto) (cfg.doneA crypto) s.respEarly s.itorEarly s.itorSent
  respToItor : ∀ f, s.itor = .full f → s.itorGot ++ (f.notifyRecvedData crypto s.r2i).1 =
    deliver crypto sel (cfg.doneA crypto) (cfg.doneB crypto) s.itorEarly s.respEarly s.respSent

/-- It is what the other side sent. -/
structure Exact (crypto : Crypto) (s : Pair) : Prop where
  itorToResp : ∀ f, s.resp = .full f →
    s.respGot ++ (f.notifyRecvedData crypto s.i2r).1 = s.itorSent
  respToItor : ∀ f, s.itor = .full f →
    s.itorGot ++ (f.notifyRecvedData crypto s.r2i).1 = s.respSent

section data

variable {s s₀ : Pair} {X R : SkeyCiph} {len early : ℕ} {waiting : Prop} {full : Full → Prop}
  {auth xmit r got raw sent up : Datum}

/-- Of a side which has sent its second packet. -/
theorem SideOk.raw_eq
    (h : SideOk crypto sel X R len auth xmit waiting full r got raw sent up early)
    (hxmit : xmit = [] ∨ xmit = auth) (hpos : 0 < auth.length) (hlen : auth.length ≤ raw.length) :
    raw = auth ++ leave crypto sel R early sent := by
  cases h with
  | waiting _ _ _ hraw hsent =>
    have hleave : leave crypto sel R early sent = [] := by
      rw [hsent, leave, mask_nil, ite_self]
    rw [hleave, List.append_nil, hraw]
    rcases hxmit with rfl | rfl
    · rw [hraw, List.length_nil] at hlen
      omega
    · rfl
  | full f out _ _ hfull hraw hearly => rw [hraw, hearly, hfull.out_eq]

/-- What the side whose handshake is over reads of what the other one sent. -/
theorem FullAt.deliver {f : Full} {out wire sent' first auth' : Datum} {early' : ℕ}
    (h : FullAt crypto sel X R (r.drop len) got sent up out f) (hlen : len ≤ r.length)
    (hfirst : (first ++ auth').length = len)
    (hwire : r ++ (got ++ wire) = first ++ (auth' ++ leave crypto sel X early' sent')) :
    up ++ (f.notifyRecvedData crypto wire).1 =
      deliver crypto sel X R (r.drop len).length early' sent' := by
  have hsplit : r.drop len ++ (got ++ wire) = leave crypto sel X early' sent' := by
    have := congrArg (List.drop len) hwire
    rwa [List.drop_append_of_le_length hlen, ← List.append_assoc first,
      List.drop_left' hfirst] at this
  rw [h.arrive, Jamstd.deliver, ← hsplit, List.take_left' rfl, List.drop_left' rfl]

theorem Inv.delivers (hfits : cfg.Fits) (hselected : cfg.selected = some sel)
    (h : Inv crypto cfg sel s) : Delivers crypto cfg sel s := by
  obtain ⟨r, got, raw, r', got', raw', hitor, hresp, hr2i, hi2r⟩ := h
  have hlenI := length_itorSide crypto hfits
  have hlenR := length_respSide crypto sel hfits
  have hposI : 0 < (cfg.itorAuth crypto).length := by
    rw [Cfg.length_itorAuth]
    omega
  have hposR : 0 < (cfg.respAuth crypto sel).length := by
    rw [Cfg.length_respAuth]
    omega
  constructor
  · intro f hf
    cases hresp with
    | waiting hstate hlen =>
      exact absurd (hstate.symm.trans hf) ((respAt_waiting crypto hselected hlen).2.2 f)
    | full f' out hstate hlen hfull _ hearly =>
      obtain rfl := Resp.full.inj (hstate.symm.trans hf)
      -- the other side has sent its authentication, and so its data after it
      have hsent : (cfg.itorAuth crypto).length ≤ raw.length := by
        have hsum := congrArg List.length hi2r
        rw [List.length_append, List.length_append, List.length_append] at hsum
        rw [List.length_append] at hlenI
        omega
      rw [hitor.raw_eq itorAt_snd hposI hsent] at hi2r
      rw [hearly]
      exact hfull.deliver hlen hlenI hi2r
  · intro f hf
    cases hitor with
    | waiting hstate hlen =>
      exact absurd (hstate.symm.trans hf) ((itorAt_waiting crypto sel hlen).2.2 f)
    | full f' out hstate hlen hfull _ hearly =>
      obtain rfl := Itor.full.inj (hstate.symm.trans hf)
      have hsent : (cfg.respAuth crypto sel).length ≤ raw'.length := by
        have hsum := congrArg List.length hr2i
        rw [List.length_append, List.length_append, List.length_append] at hsum
        rw [List.length_append] at hlenR
        omega
      rw [hresp.raw_eq (respAt_snd hselected) hposR hsent] at hr2i
      rw [hearly]
      exact hfull.deliver hlen hlenR hr2i

/-- **The data**: in every run a side reads what `deliver` says, and this is what the other side
sent where the data are plain, and where none came along with the end of a handshake. -/
theorem data_arrive (hsync : cfg.Synced crypto) (hfits : cfg.Fits)
    (hselected : cfg.selected = some sel) (hstart : start cfg = some s₀) (evs : List Event) :
    Delivers crypto cfg sel (run (step crypto cfg) s₀ evs) ∧
      (sel = negoflagPlaintext ∨ ((run (step crypto cfg) s₀ evs).itorEarly = 0 ∧
        (run (step crypto cfg) s₀ evs).respEarly = 0) →
          Exact crypto (run (step crypto cfg) s₀ evs)) := by
  have h := (inv_run hsync hfits hselected hstart evs).delivers hfits hselected
  generalize run (step crypto cfg) s₀ evs = s at h ⊢
  refine ⟨h, fun hcase => ⟨fun f hf => (h.itorToResp f hf).trans ?_,
    fun f hf => (h.respToItor f hf).trans ?_⟩⟩
  all_goals
    rcases hcase with hsel | ⟨hitor, hresp⟩
    · exact deliver_plaintext hsel
    · rcases (select_spec hselected).2 with hsel | hsel
      · rw [hitor, hresp, deliver_zero hsel]
      · exact deliver_plaintext hsel

/-- Two bytes of the responder come along with the end of the handshake of the initiator: they are
spoiled, and so is all that the initiator sends. -/
theorem data_arrive_sample :
    let s := run (step sampleCrypto sampleCfg) sampleStart
      [.respRecv 100, .itorRecv 100, .respRecv 100, .respSend [5, 6], .itorRecv 100,
        .itorSend [1, 2, 3], .respRecv 100, .respSend [7], .itorRecv 100]
    Delivers sampleCrypto sampleCfg negoflagArcfour s ∧ s.itorEarly = 2 ∧
      s.itorGot = [104, 104, 7] ∧ s.respGot = [3, 28, 29] :=
  ⟨(data_arrive synced_sample fits_sample (by decide +kernel) (by decide +kernel) _).1,
    by decide +kernel, by decide +kernel, by decide +kernel⟩

end data

/-! ### Sides which have nothing in common -/

section refused

variable {s s₀ : Pair} {r : Datum}

theorem respAt_snd_none (hselected : cfg.selected = none) : (respAt crypto cfg r).2 = [] := by
  rw [respAt]
  split_ifs
  · rfl
  · rw [respAuthAt, hselected]
    split_ifs <;> rfl

theorem respAt_none (hselected : cfg.selected = none) (h : respHeadLen cfg ≤ r.length) :
    (respAt crypto cfg r).1 = .failed := by
  rw [respHeadLen] at h
  rw [respAt, if_neg (by omega), respAuthAt, if_neg (by rw [List.length_drop]; omega), hselected]

/-- A responder which selects nothing never has a connection. -/
theorem respAt_ne_full (hselected : cfg.selected = none) (f : Full) :
    (respAt crypto cfg r).1 ≠ .full f := by
  rcases Nat.lt_or_ge r.length (respHeadLen cfg) with h | h
  · exact (respAt_waiting_head crypto h).2.2 f
  · rw [respAt_none hselected h]
    simp

variable (crypto cfg) in
/-- The initiator waits for an answer, and nothing was sent since. -/
structure Unanswered (s : Pair) : Prop where
  sides : ∃ r r', s.itor = (itorAt crypto cfg 0 r).1 ∧ r ++ s.r2i = cfg.respEsta ∧
    s.resp = (respAt crypto cfg r').1 ∧ r' ++ s.i2r = cfg.itorEsta ++ (itorAt crypto cfg 0 r).2
  got : s.itorGot = [] ∧ s.respGot = []

theorem length_lt_itorLen {wire : Datum} (hfits : cfg.Fits) (h : r ++ wire = cfg.respEsta) :
    r.length < itorLen cfg := by
  have hlen := congrArg List.length h
  rw [List.length_append, Cfg.respEsta, List.length_append, hfits.resp_len] at hlen
  rw [itorLen]
  omega

theorem Unanswered.step (hsync : cfg.Synced crypto) (hfits : cfg.Fits)
    (hselected : cfg.selected = none) (h : Unanswered crypto cfg s) (e : Event) :
    Unanswered crypto cfg (step crypto cfg s e) := by
  obtain ⟨⟨r, r', hitor, hr2i, hresp, hi2r⟩, hgot⟩ := h
  have hlen := length_lt_itorLen hfits hr2i
  have hwaiting := itorAt_waiting crypto 0 hlen
  rw [← hitor] at hwaiting
  cases e with
  | itorRecv len =>
    obtain ⟨hpre, hrest⟩ := chunk_append len hr2i
    obtain ⟨out, hnotify, hout⟩ := itor_notify (p := []) hsync hfits (UInt32.and_zero) hlen
      (hpre.trans (List.prefix_append _ _))
    rw [← hitor] at hnotify
    rw [step_itorRecv_waiting len hwaiting hnotify]
    refine ⟨⟨r ++ s.r2i.take len, r', rfl, hrest, hresp, ?_⟩, hgot⟩
    rw [hout, ← List.append_assoc, hi2r, List.append_assoc]
  | respRecv len =>
    rcases Nat.lt_or_ge r'.length (respHeadLen cfg) with hhead | hhead
    · obtain ⟨hpre, hrest⟩ := chunk_append len hi2r
      have hp : (itorAt crypto cfg 0 r).2 <+: cfg.itorAuth crypto ++ [] := by
        rw [List.append_nil]
        rcases @itorAt_snd crypto cfg 0 r with h | h
        · exact h ▸ List.nil_prefix
        · exact h ▸ List.prefix_rfl
      obtain ⟨out, hnotify, hout⟩ := resp_notify_head hsync hfits hhead
        (hpre.trans (List.prefix_append_right_inj _ |>.2 hp))
      rw [respAt_snd_none hselected, respAt_snd_none hselected, List.nil_append] at hout
      have hwaiting' := respAt_waiting_head crypto hhead
      rw [← hresp] at hnotify hwaiting'
      rw [step_respRecv_waiting len hwaiting' hnotify, ← hout, List.append_nil]
      exact ⟨⟨r, r' ++ s.i2r.take len, hitor, hr2i, rfl, hrest⟩, hgot⟩
    · -- it has failed
      have hfailed : s.resp = .failed := hresp.trans (respAt_none hselected hhead)
      have hsame : Jamstd.step crypto cfg s (.respRecv len) = s := by
        rw [Jamstd.step]
        dsimp only
        rw [hfailed]
      rw [hsame]
      exact ⟨⟨r, r', hitor, hr2i, hresp, hi2r⟩, hgot⟩
  | itorSend data =>
    rw [step_itorSend_waiting data hwaiting.2.2]
    exact ⟨⟨r, r', hitor, hr2i, hresp, hi2r⟩, hgot⟩
  | respSend data =>
    rw [step_respSend_waiting data fun f hf =>
      respAt_ne_full hselected f (hresp.symm.trans hf)]
    exact ⟨⟨r, r', hitor, hr2i, hresp, hi2r⟩, hgot⟩

/-- An initiator which got the first packet of the responder, and nothing else, waits for the
second one. -/
theorem itorAt_respEsta (hfits : cfg.Fits) :
    (itorAt crypto cfg sel cfg.respEsta).1 = .cnxauthWait cfg.resp_padesta (cfg.doneA crypto)
      (skip (cfg.ciphB crypto) cfg.profile.verif_cst.length) (cfg.itorMark crypto) := by
  have hlen : ¬cfg.respEsta.length < cfg.profile.dh_pubkey_len := by
    rw [Cfg.respEsta, List.length_append, hfits.resp_len]
    omega
  rw [itorAt, if_neg hlen]
  dsimp only
  rw [Cfg.respEsta, List.drop_left' hfits.resp_len, itorAuthAt, if_pos (by omega)]

/-- **No flag in common**: in no run has a side a connection, or anything to hand up, and the
initiator does not fail.  Once everything arrived, the responder has failed and the initiator still
waits for its answer. -/
theorem refused (hsync : cfg.Synced crypto) (hfits : cfg.Fits) (hselected : cfg.selected = none)
    (hstart : start cfg = some s₀) (evs : List Event) :
    let s := run (step crypto cfg) s₀ evs
    (∀ f, s.itor ≠ .full f ∧ s.resp ≠ .full f) ∧ s.itorGot = [] ∧ s.respGot = [] ∧
      s.itor ≠ .failed ∧ s.itor ≠ .aborted ∧
      (s.i2r = [] → s.r2i = [] → s.resp = .failed ∧
        s.itor = .cnxauthWait cfg.resp_padesta (cfg.doneA crypto)
          (skip (cfg.ciphB crypto) cfg.profile.verif_cst.length) (cfg.itorMark crypto)) := by
  have hbegin : Unanswered crypto cfg s₀ := by
    rw [start_eq hfits hstart]
    refine ⟨⟨[], [], ?_, rfl, ?_, ?_⟩, rfl, rfl⟩
    · rw [itorAt_nil hfits]
    · rw [respAt_nil hfits]
    · rw [itorAt_nil hfits, List.append_nil]
      rfl
  have h : Unanswered crypto cfg (run (Jamstd.step crypto cfg) s₀ evs) :=
    run_invariant (fun _ e h => h.step hsync hfits hselected e) hbegin evs
  generalize run (Jamstd.step crypto cfg) s₀ evs = s at h ⊢
  obtain ⟨⟨r, r', hitor, hr2i, hresp, hi2r⟩, hgot⟩ := h
  obtain ⟨hfailed, haborted, hwaiting⟩ :=
    itorAt_waiting crypto 0 (length_lt_itorLen hfits hr2i)
  rw [← hitor] at hfailed haborted hwaiting
  refine ⟨fun f => ⟨hwaiting f, fun hf => respAt_ne_full hselected f (hresp.symm.trans hf)⟩,
    hgot.1, hgot.2, hfailed, haborted, fun hi2r_nil hr2i_nil => ?_⟩
  -- the initiator got the whole first packet, and the responder all that was sent for it
  rw [hr2i_nil, List.append_nil] at hr2i
  rw [hi2r_nil, List.append_nil, itorAt_snd_of_esta hfits (by rw [hr2i])] at hi2r
  refine ⟨hresp.trans (respAt_none hselected ?_), ?_⟩
  · rw [hi2r, length_itorSide crypto hfits, respHeadLen, respLen]
    omega
  · rw [hitor, hr2i, itorAt_respEsta hfits]

/-- The sample, with a responder which allows plain data only and an initiator which does not. -/
theorem refused_sample :
    let cfg := { sampleCfg with itor_allowed := 2, resp_allowed := 1 }
    let s := run (step sampleCrypto cfg) sampleStart
      [.respRecv 3, .itorRecv 1, .respRecv 30, .itorRecv 9, .respRecv 100]
    (∀ f, s.itor ≠ .full f ∧ s.resp ≠ .full f) ∧ s.resp = .failed ∧
      s.itor = .cnxauthWait cfg.resp_padesta (cfg.doneA sampleCrypto)
        (skip (cfg.ciphB sampleCrypto) cfg.profile.verif_cst.length) (cfg.itorMark sampleCrypto) :=
  have h := @refused sampleCrypto { sampleCfg with itor_allowed := 2, resp_allowed := 1 } sampleStart
    ⟨by decide +kernel, by decide +kernel, by decide +kernel⟩
    ⟨by decide +kernel, by decide +kernel, by decide +kernel, by decide +kernel, by decide +kernel⟩
    (by decide +kernel) (by decide +kernel)
    [.respRecv 3, .itorRecv 1, .respRecv 30, .itorRecv 9, .respRecv 100]
  ⟨h.1, h.2.2.2.2.2 (by decide +kernel) (by decide +kernel)⟩

end refused

end Neoip.Jamstd
