/-
Neoip/Remote.lean

What the swarm knows about its connections, and what it counts.

This is the abstract view of a swarm: each connection has its pieces and its
wishes, and two counters hold, for each piece, how many connections have it and
how many peers wish it.  The counters are not computed: each operation moves
them beside the connection it changes.

The *drift* of a counter is what it holds less what it should hold.  There is
one lemma for each operation and each counter which says how the drift of each
piece moves; it stays the same but in three cases:

* `bfield`, which forgets the pieces the connection had;
* `doindex`, when the peer wishes the piece already;
* `noindex`, when it does not wish it.
-/
import Mathlib.Tactic.Ring
import Neoip.Bitfield
import Neoip.KeyedDb

namespace Neoip

/-- What a connection has told. -/
structure RemoteFull where
  remote_pavail : Pieceavail
  remote_pwish : Bitfield
  notified_as_open : Bool

/-- What all of them have told, and its counts. -/
structure Remote where
  full_db : KeyedDb ℕ RemoteFull
  ecnx_vapi_db : KeyedDb ℕ Pieceavail
  remote_pfreq : Bitcount
  remote_pwish : Bitcount

namespace Remote

/-! ### Operations -/

section Operations

variable (r : Remote) (id : ℕ)

def setFull (w : RemoteFull) : Remote := { r with full_db := r.full_db.modify id fun _ => w }

/-- A peer which is just linked: no piece, everything wished. -/
def fullStart (nb_piece : ℕ) : Remote :=
  { r with
    full_db := r.full_db.push id
      ⟨Bitfield.ofSize nb_piece, (Bitfield.ofSize nb_piece).compl, false⟩ }

def opened (w : RemoteFull) : Remote :=
  { r.setFull id { w with notified_as_open := true } with
    remote_pwish := r.remote_pwish.incField w.remote_pwish }

def closed (w : RemoteFull) : Remote :=
  let r := if w.notified_as_open then
      { r with
        remote_pfreq := r.remote_pfreq.decField w.remote_pavail
        remote_pwish := r.remote_pwish.decField w.remote_pwish }
    else r
  { r with full_db := r.full_db.erase id }

def isavail (w : RemoteFull) (idx : ℕ) : Remote :=
  { r.setFull id { w with remote_pavail := w.remote_pavail.markIsavail idx } with
    remote_pfreq := r.remote_pfreq.inc idx }

def unavail (w : RemoteFull) (idx : ℕ) : Remote :=
  { r.setFull id { w with remote_pavail := w.remote_pavail.markUnavail idx } with
    remote_pfreq := r.remote_pfreq.dec idx }

def bfield (w : RemoteFull) (pavail : Pieceavail) : Remote :=
  { r.setFull id { w with remote_pavail := pavail } with
    remote_pfreq := r.remote_pfreq.incField pavail }

def doindex (w : RemoteFull) (idx : ℕ) : Remote :=
  { r.setFull id { w with remote_pwish := w.remote_pwish.set idx } with
    remote_pwish := r.remote_pwish.inc idx }

def noindex (w : RemoteFull) (idx : ℕ) : Remote :=
  { r.setFull id { w with remote_pwish := w.remote_pwish.clear idx } with
    remote_pwish := r.remote_pwish.dec idx }

def dofield (w : RemoteFull) (pwish : Bitfield) : Remote :=
  { r.setFull id { w with remote_pwish := pwish } with
    remote_pwish := (r.remote_pwish.decField w.remote_pwish).incField pwish }

variable (slot : ℕ)

def ecnxOpened (pavail : Pieceavail) : Remote :=
  { r with
    ecnx_vapi_db := r.ecnx_vapi_db.link (fun k => k < slot) slot pavail
    remote_pfreq := r.remote_pfreq.incField pavail }

def ecnxClosed (pavail : Pieceavail) : Remote :=
  { r with
    ecnx_vapi_db := r.ecnx_vapi_db.erase slot
    remote_pfreq := r.remote_pfreq.decField pavail }

end Operations

/-! ### What the counters should hold -/

def hasPiece (i : ℕ) (w : RemoteFull) : Bool := w.notified_as_open && w.remote_pavail.isAvail i

def wishesPiece (i : ℕ) (w : RemoteFull) : Bool := w.notified_as_open && w.remote_pwish.get i

/-- The open connections which have the piece. -/
def nbAvail (r : Remote) (i : ℕ) : ℕ :=
  r.full_db.count (hasPiece i) + r.ecnx_vapi_db.count fun pavail => pavail.isAvail i

/-- The open connections whose peer wishes the piece. -/
def nbWish (r : Remote) (i : ℕ) : ℕ := r.full_db.count (wishesPiece i)

def pfreqDrift (r : Remote) (i : ℕ) : ℤ := r.remote_pfreq.get i - r.nbAvail i

def pwishDrift (r : Remote) (i : ℕ) : ℤ := r.remote_pwish.get i - r.nbWish i

/-- Sizes, and no piece before the connection is open. -/
structure Sane (nb_piece : ℕ) (r : Remote) : Prop where
  size_pfreq : r.remote_pfreq.size = nb_piece
  size_pwish : r.remote_pwish.size = nb_piece
  pavail : ∀ {id w}, r.full_db.get id = some w → List.length w.remote_pavail = nb_piece
  pwish : ∀ {id w}, r.full_db.get id = some w → w.remote_pwish.length = nb_piece
  unopened : ∀ {id w}, r.full_db.get id = some w → w.notified_as_open = false →
    ∀ i, w.remote_pavail.isAvail i = false
  ecnx : ∀ {slot pavail}, r.ecnx_vapi_db.get slot = some pavail → List.length pavail = nb_piece

theorem Sane.nb_piece {n : ℕ} {r : Remote} {id : ℕ} {w : RemoteFull} (hs : r.Sane n)
    (h : r.full_db.get id = some w) : w.remote_pavail.nb_piece = n := hs.pavail h

/-- The counter of the pieces is right, and no operation on it went wrong. -/
structure PfreqOk (nb_piece : ℕ) (r : Remote) : Prop where
  faults : r.remote_pfreq.faults = []
  drift : ∀ i < nb_piece, r.pfreqDrift i = 0

/-- The counter of the wishes is right, and no operation on it went wrong. -/
structure PwishOk (nb_piece : ℕ) (r : Remote) : Prop where
  faults : r.remote_pwish.faults = []
  drift : ∀ i < nb_piece, r.pwishDrift i = 0

/-- The peer wishes nothing that it has. -/
def Apart (w : RemoteFull) : Prop :=
  ∀ i, w.remote_pavail.isAvail i = true → w.remote_pwish.get i = false

/-- Every peer but `id` wishes nothing that it has. -/
def DisjointBut (r : Remote) (id : ℕ) : Prop :=
  ∀ ⦃j u⦄, j ≠ id → r.full_db.get j = some u → Apart u

def Disjoint (r : Remote) : Prop := ∀ ⦃j u⦄, r.full_db.get j = some u → Apart u

variable {nb_piece : ℕ} {r q : Remote} {id slot idx i : ℕ} {w v : RemoteFull} {pa : Pieceavail}
  {bf : Bitfield}

/-! ### One connection changes -/

theorem get_setFull (h : r.full_db.get id = some w) {j : ℕ} :
    (r.setFull id v).full_db.get j = if j = id then some v else r.full_db.get j := by
  rw [setFull, KeyedDb.get_modify, h, Option.map_some]

theorem nbAvail_setFull (h : r.full_db.get id = some w) :
    ((r.setFull id v).nbAvail i : ℤ) =
      r.nbAvail i - (if hasPiece i w then 1 else 0) + if hasPiece i v then 1 else 0 := by
  rw [nbAvail, nbAvail, setFull]
  push_cast
  rw [KeyedDb.count_modify h]
  omega

theorem nbWish_setFull (h : r.full_db.get id = some w) :
    ((r.setFull id v).nbWish i : ℤ) =
      r.nbWish i - (if wishesPiece i w then 1 else 0) + if wishesPiece i v then 1 else 0 := by
  rw [nbWish, nbWish, setFull, KeyedDb.count_modify h]

theorem sane_setFull (hs : r.Sane nb_piece) (h : r.full_db.get id = some w)
    (hpa : List.length v.remote_pavail = nb_piece) (hpw : v.remote_pwish.length = nb_piece)
    (hopen : v.notified_as_open = false → ∀ i, v.remote_pavail.isAvail i = false) :
    (r.setFull id v).Sane nb_piece := by
  have hget : ∀ {j u}, (r.setFull id v).full_db.get j = some u →
      u = v ∨ r.full_db.get j = some u := by
    intro j u hj
    rw [get_setFull h] at hj
    split_ifs at hj
    · exact .inl (Option.some.inj hj).symm
    · exact .inr hj
  refine ⟨hs.size_pfreq, hs.size_pwish, ?_, ?_, ?_, hs.ecnx⟩ <;> intro j u hj <;>
    obtain rfl | hj := hget hj
  · exact hpa
  · exact hs.pavail hj
  · exact hpw
  · exact hs.pwish hj
  · exact hopen
  · exact hs.unopened hj

/-- Other counters, of the same sizes. -/
theorem Sane.counters (hs : r.Sane nb_piece) (hf : q.full_db = r.full_db)
    (he : q.ecnx_vapi_db = r.ecnx_vapi_db) (h1 : q.remote_pfreq.size = r.remote_pfreq.size)
    (h2 : q.remote_pwish.size = r.remote_pwish.size) : q.Sane nb_piece := by
  refine ⟨h1.trans hs.size_pfreq, h2.trans hs.size_pwish, ?_, ?_, ?_, ?_⟩
  · rw [hf]
    exact hs.pavail
  · rw [hf]
    exact hs.pwish
  · rw [hf]
    exact hs.unopened
  · rw [he]
    exact hs.ecnx

/-- A counter of something that is there is not zero. -/
theorem PfreqOk.pos (hp : r.PfreqOk nb_piece) (h : r.full_db.get id = some w)
    (hi : i < nb_piece) (hw : hasPiece i w = true) : r.remote_pfreq.get i ≠ 0 := by
  have hpos := KeyedDb.count_pos h hw
  have hd := hp.drift i hi
  rw [pfreqDrift, nbAvail] at hd
  push_cast at hd
  omega

theorem PwishOk.pos (hp : r.PwishOk nb_piece) (h : r.full_db.get id = some w)
    (hi : i < nb_piece) (hw : wishesPiece i w = true) : r.remote_pwish.get i ≠ 0 := by
  have hpos := KeyedDb.count_pos h hw
  have hd := hp.drift i hi
  rw [pwishDrift, nbWish] at hd
  omega

theorem disjoint_iff (h : r.full_db.get id = some w) :
    r.Disjoint ↔ r.DisjointBut id ∧ Apart w := by
  constructor
  · intro hd
    exact ⟨fun _ _ _ hu => hd hu, hd h⟩
  · rintro ⟨hd, hw⟩ j u hu
    by_cases hj : j = id
    · subst hj
      rw [h] at hu
      rwa [← Option.some.inj hu]
    · exact hd hj hu

section SetFull

variable (h : r.full_db.get id = some w) (hf : q.full_db = (r.setFull id v).full_db)
include h hf

/-- How the drift of the pieces moves, when a connection and the counter change together. -/
theorem pfreqDrift_setFull (he : q.ecnx_vapi_db = r.ecnx_vapi_db) {d : ℤ}
    (hc : q.remote_pfreq.get i = r.remote_pfreq.get i + d) :
    q.pfreqDrift i = r.pfreqDrift i + d + (if hasPiece i w then 1 else 0) -
      if hasPiece i v then 1 else 0 := by
  have hn := nbAvail_setFull (i := i) (v := v) h
  have hn' : q.nbAvail i = (r.setFull id v).nbAvail i := by
    rw [nbAvail, hf, he, nbAvail]
    rfl
  rw [pfreqDrift, pfreqDrift, hc, hn', hn]
  omega

theorem pwishDrift_setFull {d : ℤ} (hc : q.remote_pwish.get i = r.remote_pwish.get i + d) :
    q.pwishDrift i = r.pwishDrift i + d + (if wishesPiece i w then 1 else 0) -
      if wishesPiece i v then 1 else 0 := by
  have hn := nbWish_setFull (i := i) (v := v) h
  have hn' : q.nbWish i = (r.setFull id v).nbWish i := by rw [nbWish, hf, nbWish]
  rw [pwishDrift, pwishDrift, hc, hn', hn]
  omega

/-- A connection which is as it was for the pieces, and the counter too. -/
theorem pfreqOk_setFull (he : q.ecnx_vapi_db = r.ecnx_vapi_db)
    (hc : q.remote_pfreq = r.remote_pfreq) (hw : ∀ i, hasPiece i v = hasPiece i w)
    (hp : r.PfreqOk nb_piece) : q.PfreqOk nb_piece := by
  refine ⟨hc ▸ hp.faults, fun i hi => ?_⟩
  rw [pfreqDrift_setFull h hf he (d := 0) (by rw [hc, add_zero]), hw, hp.drift i hi]
  omega

/-- A connection which wishes what it wished, and the counter too. -/
theorem pwishOk_setFull (hc : q.remote_pwish = r.remote_pwish)
    (hw : ∀ i, wishesPiece i v = wishesPiece i w) (hp : r.PwishOk nb_piece) :
    q.PwishOk nb_piece := by
  refine ⟨hc ▸ hp.faults, fun i hi => ?_⟩
  rw [pwishDrift_setFull h hf (d := 0) (by rw [hc, add_zero]), hw, hp.drift i hi]
  omega

theorem disjointBut_setFull : q.DisjointBut id ↔ r.DisjointBut id := by
  have hget : ∀ {j}, j ≠ id → q.full_db.get j = r.full_db.get j := by
    intro j hj
    rw [hf, get_setFull h, if_neg hj]
  constructor
  · intro hd j u hj hu
    exact hd hj ((hget hj).trans hu)
  · intro hd j u hj hu
    exact hd hj ((hget hj).symm.trans hu)

/-- Only the connection that changes has to be looked at. -/
theorem disjoint_setFull : q.Disjoint ↔ r.DisjointBut id ∧ Apart v := by
  have hget : q.full_db.get id = some v := by rw [hf, get_setFull h, if_pos rfl]
  rw [disjoint_iff hget, disjointBut_setFull h hf]

end SetFull

/-! ### Open and close -/

section OpenClose

theorem fullStart_of_some (h : r.full_db.get id = some w) : r.fullStart id nb_piece = r := by
  rw [fullStart, KeyedDb.push, KeyedDb.link_of_some h]

theorem closed_full_db : (r.closed id w).full_db = r.full_db.erase id := by
  rw [closed]
  split_ifs <;> rfl

theorem closed_ecnx_vapi_db : (r.closed id w).ecnx_vapi_db = r.ecnx_vapi_db := by
  rw [closed]
  split_ifs <;> rfl

theorem sane_fullStart (hs : r.Sane nb_piece) : (r.fullStart id nb_piece).Sane nb_piece := by
  cases hid : r.full_db.get id with
  | some w => rwa [fullStart_of_some hid]
  | none =>
    have hget : ∀ {j u}, (r.fullStart id nb_piece).full_db.get j = some u →
        u = ⟨Bitfield.ofSize nb_piece, (Bitfield.ofSize nb_piece).compl, false⟩ ∨
          r.full_db.get j = some u := by
      intro j u hj
      rw [fullStart, KeyedDb.push, KeyedDb.get_link hid] at hj
      split_ifs at hj
      · exact .inl (Option.some.inj hj).symm
      · exact .inr hj
    refine ⟨hs.size_pfreq, hs.size_pwish, ?_, ?_, ?_, hs.ecnx⟩ <;> intro j u hj <;>
      obtain rfl | hj := hget hj
    · exact Bitfield.length_ofSize nb_piece
    · exact hs.pavail hj
    · exact Bitfield.length_compl.trans (Bitfield.length_ofSize nb_piece)
    · exact hs.pwish hj
    · exact fun _ i => Bitfield.get_ofSize nb_piece i
    · exact hs.unopened hj

theorem pfreqOk_fullStart (hp : r.PfreqOk nb_piece) :
    (r.fullStart id nb_piece).PfreqOk nb_piece := by
  refine ⟨hp.faults, fun i hi => ?_⟩
  rw [← hp.drift i hi, pfreqDrift, pfreqDrift, nbAvail, nbAvail, fullStart, KeyedDb.push]
  cases hid : r.full_db.get id with
  | some w => rw [KeyedDb.link_of_some hid]
  | none =>
    push_cast
    rw [KeyedDb.count_link hid, hasPiece, Bool.false_and, if_neg Bool.false_ne_true, add_zero]

theorem pwishOk_fullStart (hp : r.PwishOk nb_piece) :
    (r.fullStart id nb_piece).PwishOk nb_piece := by
  cases hid : r.full_db.get id with
  | some w => rwa [fullStart_of_some hid]
  | none =>
    refine ⟨hp.faults, fun i hi => ?_⟩
    rw [← hp.drift i hi, pwishDrift, pwishDrift, nbWish, nbWish, fullStart, KeyedDb.push,
      KeyedDb.count_link hid, wishesPiece, Bool.false_and, if_neg Bool.false_ne_true, add_zero]

theorem disjoint_fullStart (hd : r.Disjoint) : (r.fullStart id nb_piece).Disjoint := by
  cases hid : r.full_db.get id with
  | some w => rwa [fullStart_of_some hid]
  | none =>
    intro j u hj
    rw [fullStart, KeyedDb.push, KeyedDb.get_link hid] at hj
    split_ifs at hj
    · rw [← Option.some.inj hj]
      intro i hi
      rw [Pieceavail.isAvail, Bitfield.get_ofSize] at hi
      cases hi
    · exact hd hj

variable (hs : r.Sane nb_piece) (h : r.full_db.get id = some w)
include hs h

theorem sane_opened : (r.opened id w).Sane nb_piece := by
  have hpa := hs.pavail h
  have hpw := hs.pwish h
  exact (sane_setFull (v := { w with notified_as_open := true }) hs h hpa hpw nofun).counters rfl
    rfl rfl Bitcount.size_incField

theorem pfreqOk_opened (ho : w.notified_as_open = false) (hp : r.PfreqOk nb_piece) :
    (r.opened id w).PfreqOk nb_piece := by
  refine pfreqOk_setFull (v := { w with notified_as_open := true }) h rfl rfl rfl ?_ hp
  intro i
  rw [hasPiece, hasPiece, hs.unopened h ho i, Bool.and_false, Bool.and_false]

theorem pwishOk_opened (ho : w.notified_as_open = false) (hp : r.PwishOk nb_piece) :
    (r.opened id w).PwishOk nb_piece := by
  refine ⟨?_, fun i hi => ?_⟩
  · exact Bitcount.faults_incField.2 ⟨hp.faults, hs.size_pwish.trans (hs.pwish h).symm⟩
  · have hc : (r.opened id w).remote_pwish.get i =
        r.remote_pwish.get i + if w.remote_pwish.get i then 1 else 0 :=
      Bitcount.get_incField (hs.size_pwish ▸ hi)
    rw [pwishDrift_setFull (q := r.opened id w) (v := { w with notified_as_open := true }) h rfl hc,
      hp.drift i hi, wishesPiece, wishesPiece, ho, Bool.true_and, Bool.false_and,
      if_neg Bool.false_ne_true]
    ring

omit hs in
theorem disjoint_opened (hd : r.Disjoint) : (r.opened id w).Disjoint :=
  (disjoint_setFull (v := { w with notified_as_open := true }) h rfl).2 ((disjoint_iff h).1 hd)

omit h in
theorem sane_closed : (r.closed id w).Sane nb_piece := by
  have hget : ∀ {j u}, (r.closed id w).full_db.get j = some u → r.full_db.get j = some u := by
    intro j u hj
    rw [closed_full_db, KeyedDb.get_erase] at hj
    split_ifs at hj
    exact hj
  refine ⟨?_, ?_, fun hj => hs.pavail (hget hj), fun hj => hs.pwish (hget hj),
    fun hj => hs.unopened (hget hj), ?_⟩
  · rw [closed]
    split_ifs
    · exact Bitcount.size_decField.trans hs.size_pfreq
    · exact hs.size_pfreq
  · rw [closed]
    split_ifs
    · exact Bitcount.size_decField.trans hs.size_pwish
    · exact hs.size_pwish
  · rw [closed_ecnx_vapi_db]
    exact hs.ecnx

/-- What a connection was counted for is taken out when it closes. -/
theorem pfreqDrift_closed (hi : i < nb_piece) : (r.closed id w).pfreqDrift i = r.pfreqDrift i := by
  have hcount := KeyedDb.count_erase (p := hasPiece i) h
  rw [pfreqDrift, pfreqDrift, nbAvail, nbAvail, closed]
  split_ifs with ho
  · show ((r.remote_pfreq.decField w.remote_pavail).get i - _ : ℤ) = _
    rw [Bitcount.get_decField (hs.size_pfreq ▸ hi)]
    rw [hasPiece, ho, Bool.true_and, Pieceavail.isAvail] at hcount
    push_cast
    rw [hcount]
    omega
  · rw [Bool.not_eq_true] at ho
    rw [hasPiece, ho, Bool.false_and, if_neg Bool.false_ne_true, sub_zero] at hcount
    push_cast
    rw [hcount]

theorem pwishDrift_closed (hi : i < nb_piece) : (r.closed id w).pwishDrift i = r.pwishDrift i := by
  have hcount := KeyedDb.count_erase (p := wishesPiece i) h
  rw [pwishDrift, pwishDrift, nbWish, nbWish, closed]
  split_ifs with ho
  · show ((r.remote_pwish.decField w.remote_pwish).get i - _ : ℤ) = _
    rw [Bitcount.get_decField (hs.size_pwish ▸ hi)]
    rw [wishesPiece, ho, Bool.true_and] at hcount
    rw [hcount]
    omega
  · rw [Bool.not_eq_true] at ho
    rw [wishesPiece, ho, Bool.false_and, if_neg Bool.false_ne_true, sub_zero] at hcount
    rw [hcount]

theorem pfreqOk_closed (hp : r.PfreqOk nb_piece) : (r.closed id w).PfreqOk nb_piece := by
  refine ⟨?_, fun i hi => (pfreqDrift_closed hs h hi).trans (hp.drift i hi)⟩
  rw [closed]
  split_ifs with ho
  · refine Bitcount.faults_decField.2 ⟨hp.faults, hs.size_pfreq.trans (hs.pavail h).symm, ?_⟩
    intro i hi hget
    refine hp.pos h (hs.size_pfreq ▸ hi) ?_
    rw [hasPiece, ho, Pieceavail.isAvail, hget]
    rfl
  · exact hp.faults

theorem pwishOk_closed (hp : r.PwishOk nb_piece) : (r.closed id w).PwishOk nb_piece := by
  refine ⟨?_, fun i hi => (pwishDrift_closed hs h hi).trans (hp.drift i hi)⟩
  rw [closed]
  split_ifs with ho
  · refine Bitcount.faults_decField.2 ⟨hp.faults, hs.size_pwish.trans (hs.pwish h).symm, ?_⟩
    intro i hi hget
    refine hp.pos h (hs.size_pwish ▸ hi) ?_
    rw [wishesPiece, ho, hget]
    rfl
  · exact hp.faults

omit hs h in
/-- What the connection itself has and wishes does not matter any more. -/
theorem disjoint_closed (hd : r.DisjointBut id) : (r.closed id w).Disjoint := by
  intro j u hj
  rw [closed_full_db, KeyedDb.get_erase] at hj
  split_ifs at hj with hjid
  exact hd hjid hj

end OpenClose

/-- Connections close, any number of them. -/
def Closes : Remote → Remote → Prop :=
  Relation.ReflTransGen fun r q => ∃ id w, r.full_db.get id = some w ∧ q = r.closed id w

namespace Closes

theorem refl (r : Remote) : Closes r r := Relation.ReflTransGen.refl

theorem trans {p : Remote} (h : Closes p r) (h' : Closes r q) : Closes p q :=
  Relation.ReflTransGen.trans h h'

theorem one (h : r.full_db.get id = some w) : Closes r (r.closed id w) :=
  Relation.ReflTransGen.single ⟨id, w, h, rfl⟩

theorem of_eq (h : q = r) : Closes r q := h ▸ refl r

theorem sane (h : Closes r q) (hs : r.Sane nb_piece) : q.Sane nb_piece := by
  induction h with
  | refl => exact hs
  | tail _ hstep ih =>
    obtain ⟨id, w, -, rfl⟩ := hstep
    exact sane_closed ih

theorem pfreqDrift (h : Closes r q) (hs : r.Sane nb_piece) (hi : i < nb_piece) :
    q.pfreqDrift i = r.pfreqDrift i := by
  induction h with
  | refl => rfl
  | tail hrest hstep ih =>
    obtain ⟨id, w, hget, rfl⟩ := hstep
    exact (pfreqDrift_closed (sane hrest hs) hget hi).trans ih

theorem pfreqOk (h : Closes r q) (hs : r.Sane nb_piece) (hp : r.PfreqOk nb_piece) :
    q.PfreqOk nb_piece := by
  induction h with
  | refl => exact hp
  | tail hrest hstep ih =>
    obtain ⟨id, w, hget, rfl⟩ := hstep
    exact pfreqOk_closed (sane hrest hs) hget ih

theorem pwishDrift (h : Closes r q) (hs : r.Sane nb_piece) (hi : i < nb_piece) :
    q.pwishDrift i = r.pwishDrift i := by
  induction h with
  | refl => rfl
  | tail hrest hstep ih =>
    obtain ⟨id, w, hget, rfl⟩ := hstep
    exact (pwishDrift_closed (sane hrest hs) hget hi).trans ih

theorem pwishOk (h : Closes r q) (hs : r.Sane nb_piece) (hp : r.PwishOk nb_piece) :
    q.PwishOk nb_piece := by
  induction h with
  | refl => exact hp
  | tail hrest hstep ih =>
    obtain ⟨id, w, hget, rfl⟩ := hstep
    exact pwishOk_closed (sane hrest hs) hget ih

theorem disjoint (h : Closes r q) (hd : r.Disjoint) : q.Disjoint := by
  induction h with
  | refl => exact hd
  | tail hrest hstep ih =>
    obtain ⟨id, w, hget, rfl⟩ := hstep
    exact disjoint_closed fun _ _ _ hu => ih hu

end Closes

/-! ### The pieces of a peer -/

section Pieces

variable (hs : r.Sane nb_piece) (h : r.full_db.get id = some w)
include hs h

theorem sane_isavail (ho : w.notified_as_open = true) : (r.isavail id w idx).Sane nb_piece := by
  have hpa : List.length (w.remote_pavail.markIsavail idx) = nb_piece :=
    (Bitfield.length_set true).trans (hs.pavail h)
  have hpw := hs.pwish h
  refine (sane_setFull (v := { w with remote_pavail := w.remote_pavail.markIsavail idx })
    hs h hpa hpw ?_).counters rfl rfl Bitcount.size_inc rfl
  intro hc
  exact absurd (ho.symm.trans hc) nofun

theorem pfreqOk_isavail (ho : w.notified_as_open = true) (hp : r.PfreqOk nb_piece)
    (hidx : idx < nb_piece) (hav : w.remote_pavail.isAvail idx = false) :
    (r.isavail id w idx).PfreqOk nb_piece := by
  have hidx' : idx < r.remote_pfreq.size := by rwa [hs.size_pfreq]
  refine ⟨Bitcount.faults_inc.2 ⟨hp.faults, hidx'⟩, fun i hi => ?_⟩
  have hc : (r.isavail id w idx).remote_pfreq.get i =
      r.remote_pfreq.get i + if i = idx then 1 else 0 := Bitcount.get_inc hidx'
  rw [pfreqDrift_setFull (q := r.isavail id w idx)
    (v := { w with remote_pavail := w.remote_pavail.markIsavail idx }) h rfl rfl hc,
    hp.drift i hi, hasPiece, hasPiece, ho, Bool.true_and, Bool.true_and,
    Pieceavail.isAvail_markIsavail (hs.nb_piece h ▸ hidx)]
  by_cases hii : i = idx
  · rw [if_pos hii, if_pos hii, hii, hav]
    rfl
  · rw [if_neg hii, if_neg hii]
    omega

omit hs in
theorem pwishOk_isavail (hp : r.PwishOk nb_piece) : (r.isavail id w idx).PwishOk nb_piece :=
  pwishOk_setFull (v := { w with remote_pavail := w.remote_pavail.markIsavail idx })
    (q := r.isavail id w idx) h rfl rfl (fun _ => rfl) hp

omit hs in
theorem pwishDrift_isavail : (r.isavail id w idx).pwishDrift i = r.pwishDrift i := by
  rw [pwishDrift_setFull (q := r.isavail id w idx)
    (v := { w with remote_pavail := w.remote_pavail.markIsavail idx }) h rfl (add_zero _).symm,
    add_zero]
  exact add_sub_cancel_right _ _

omit hs in
theorem disjointBut_isavail : (r.isavail id w idx).DisjointBut id ↔ r.DisjointBut id :=
  disjointBut_setFull (v := { w with remote_pavail := w.remote_pavail.markIsavail idx }) h rfl

/-- A peer which gets a piece must not wish it any more. -/
theorem disjoint_isavail (hd : r.Disjoint) (hidx : idx < nb_piece) :
    (r.isavail id w idx).Disjoint ↔ w.remote_pwish.get idx = false := by
  obtain ⟨hbut, hw⟩ := (disjoint_iff h).1 hd
  rw [disjoint_setFull (q := r.isavail id w idx)
    (v := { w with remote_pavail := w.remote_pavail.markIsavail idx }) h rfl]
  constructor
  · rintro ⟨-, hv⟩
    refine hv idx ?_
    rw [Pieceavail.isAvail_markIsavail (hs.nb_piece h ▸ hidx), if_pos rfl]
  · intro hno
    refine ⟨hbut, fun i hi => ?_⟩
    rw [Pieceavail.isAvail_markIsavail (hs.nb_piece h ▸ hidx)] at hi
    split_ifs at hi with hii
    · rw [hii]
      exact hno
    · exact hw i hi

theorem sane_unavail : (r.unavail id w idx).Sane nb_piece := by
  have hpa : List.length (w.remote_pavail.markUnavail idx) = nb_piece :=
    Bitfield.length_clear.trans (hs.pavail h)
  have hpw := hs.pwish h
  refine (sane_setFull (v := { w with remote_pavail := w.remote_pavail.markUnavail idx })
    hs h hpa hpw ?_).counters rfl rfl Bitcount.size_dec rfl
  intro hc i
  rw [Pieceavail.isAvail_markUnavail, hs.unopened h hc i, ite_self]

theorem pfreqOk_unavail (ho : w.notified_as_open = true) (hp : r.PfreqOk nb_piece)
    (hav : w.remote_pavail.isAvail idx = true) : (r.unavail id w idx).PfreqOk nb_piece := by
  have hidx : idx < nb_piece := hs.pavail h ▸ Bitfield.lt_of_get hav
  have hidx' : idx < r.remote_pfreq.size := by rwa [hs.size_pfreq]
  have hpos := hp.pos h hidx (by rw [hasPiece, ho, hav]; rfl)
  refine ⟨Bitcount.faults_dec.2 ⟨hp.faults, hidx', hpos⟩, fun i hi => ?_⟩
  have hc : (r.unavail id w idx).remote_pfreq.get i =
      r.remote_pfreq.get i + -if i = idx then 1 else 0 := Bitcount.get_dec hidx'
  rw [pfreqDrift_setFull (q := r.unavail id w idx)
    (v := { w with remote_pavail := w.remote_pavail.markUnavail idx }) h rfl rfl hc,
    hp.drift i hi, hasPiece, hasPiece, ho, Bool.true_and, Bool.true_and, Pieceavail.isAvail_markUnavail]
  by_cases hii : i = idx
  · rw [if_pos hii, if_pos hii, hii, hav]
    rfl
  · rw [if_neg hii, if_neg hii]
    omega

omit hs in
theorem pwishOk_unavail (hp : r.PwishOk nb_piece) : (r.unavail id w idx).PwishOk nb_piece :=
  pwishOk_setFull (v := { w with remote_pavail := w.remote_pavail.markUnavail idx })
    (q := r.unavail id w idx) h rfl rfl (fun _ => rfl) hp

omit hs in
theorem disjoint_unavail (hd : r.Disjoint) : (r.unavail id w idx).Disjoint := by
  obtain ⟨hbut, hw⟩ := (disjoint_iff h).1 hd
  refine (disjoint_setFull (q := r.unavail id w idx)
    (v := { w with remote_pavail := w.remote_pavail.markUnavail idx }) h rfl).2
    ⟨hbut, fun i hi => ?_⟩
  rw [Pieceavail.isAvail_markUnavail] at hi
  split_ifs at hi
  exact hw i hi

theorem sane_bfield (hpa : List.length pa = nb_piece) (ho : w.notified_as_open = true) :
    (r.bfield id w pa).Sane nb_piece := by
  have hpw := hs.pwish h
  refine (sane_setFull (v := { w with remote_pavail := pa }) hs h hpa hpw ?_).counters rfl rfl
    Bitcount.size_incField rfl
  intro hc
  exact absurd (ho.symm.trans hc) nofun

/-- The pieces which the connection had are still counted. -/
theorem pfreqDrift_bfield (ho : w.notified_as_open = true) (hi : i < nb_piece) :
    (r.bfield id w pa).pfreqDrift i =
      r.pfreqDrift i + if w.remote_pavail.isAvail i then 1 else 0 := by
  have hc : (r.bfield id w pa).remote_pfreq.get i =
      r.remote_pfreq.get i + if pa.isAvail i then 1 else 0 :=
    Bitcount.get_incField (hs.size_pfreq ▸ hi)
  rw [pfreqDrift_setFull (q := r.bfield id w pa) (v := { w with remote_pavail := pa }) h rfl rfl hc,
    hasPiece, hasPiece, ho, Bool.true_and, Bool.true_and]
  ring

theorem pfreqOk_bfield (hpa : List.length pa = nb_piece) (ho : w.notified_as_open = true)
    (hp : r.PfreqOk nb_piece) :
    (r.bfield id w pa).PfreqOk nb_piece ↔ ∀ i, w.remote_pavail.isAvail i = false := by
  constructor
  · intro hp' i
    by_cases hi : i < nb_piece
    · have hd := hp'.drift i hi
      rw [pfreqDrift_bfield hs h ho hi, hp.drift i hi, zero_add] at hd
      rw [← Bool.not_eq_true]
      intro hav
      rw [if_pos hav] at hd
      cases hd
    · rw [← hs.pavail h] at hi
      exact Bitfield.get_of_le (Nat.le_of_not_lt hi)
  · intro hnone
    refine ⟨Bitcount.faults_incField.2 ⟨hp.faults, hs.size_pfreq.trans hpa.symm⟩, fun i hi => ?_⟩
    rw [pfreqDrift_bfield hs h ho hi, hp.drift i hi, hnone i]
    rfl

omit hs in
theorem pwishOk_bfield (hp : r.PwishOk nb_piece) : (r.bfield id w pa).PwishOk nb_piece :=
  pwishOk_setFull (v := { w with remote_pavail := pa }) (q := r.bfield id w pa) h rfl rfl
    (fun _ => rfl) hp

omit hs in
theorem disjointBut_bfield : (r.bfield id w pa).DisjointBut id ↔ r.DisjointBut id :=
  disjointBut_setFull (v := { w with remote_pavail := pa }) h rfl

omit hs in
theorem disjoint_bfield (hd : r.DisjointBut id) : (r.bfield id w pa).Disjoint ↔
    ∀ i, pa.isAvail i = true → w.remote_pwish.get i = false := by
  rw [disjoint_setFull (q := r.bfield id w pa) (v := { w with remote_pavail := pa }) h rfl]
  exact and_iff_right hd

end Pieces

/-! ### The wishes of a peer -/

section Wishes

variable (hs : r.Sane nb_piece) (h : r.full_db.get id = some w)
include hs h

theorem sane_doindex : (r.doindex id w idx).Sane nb_piece := by
  have hpa := hs.pavail h
  have hpw : (w.remote_pwish.set idx).length = nb_piece :=
    (Bitfield.length_set true).trans (hs.pwish h)
  have hun := hs.unopened h
  exact (sane_setFull (v := { w with remote_pwish := w.remote_pwish.set idx }) hs h hpa hpw
    hun).counters rfl rfl rfl Bitcount.size_inc

theorem get_pwish_set (hidx : idx < nb_piece) :
    (w.remote_pwish.set idx).get i = if i = idx then true else w.remote_pwish.get i := by
  rw [← hs.pwish h] at hidx
  simp only [Bitfield.get_set, hidx, and_true]

/-- A wish is counted once more, also when it was there. -/
theorem pwishDrift_doindex (ho : w.notified_as_open = true) (hidx : idx < nb_piece) :
    (r.doindex id w idx).pwishDrift i =
      r.pwishDrift i + if i = idx ∧ w.remote_pwish.get idx then 1 else 0 := by
  have hc : (r.doindex id w idx).remote_pwish.get i =
      r.remote_pwish.get i + if i = idx then 1 else 0 :=
    Bitcount.get_inc (hs.size_pwish ▸ hidx)
  rw [pwishDrift_setFull (q := r.doindex id w idx)
    (v := { w with remote_pwish := w.remote_pwish.set idx }) h rfl hc,
    wishesPiece, wishesPiece, ho, Bool.true_and, Bool.true_and, get_pwish_set hs h hidx]
  by_cases hii : i = idx
  · cases hget : w.remote_pwish.get idx <;> simp [hii, hget, sub_eq_add_neg]
  · simp [hii]

theorem pwishOk_doindex (ho : w.notified_as_open = true) (hp : r.PwishOk nb_piece) :
    (r.doindex id w idx).PwishOk nb_piece ↔ idx < nb_piece ∧ w.remote_pwish.get idx = false := by
  constructor
  · intro hp'
    have hidx : idx < nb_piece := hs.size_pwish ▸ (Bitcount.faults_inc.1 hp'.faults).2
    refine ⟨hidx, ?_⟩
    have hd := hp'.drift idx hidx
    rw [pwishDrift_doindex hs h ho hidx, hp.drift idx hidx] at hd
    simpa using hd
  · rintro ⟨hidx, hno⟩
    refine ⟨Bitcount.faults_inc.2 ⟨hp.faults, hs.size_pwish ▸ hidx⟩, fun i hi => ?_⟩
    rw [pwishDrift_doindex hs h ho hidx, hp.drift i hi, hno]
    simp

theorem disjoint_doindex (hd : r.Disjoint) (hidx : idx < nb_piece)
    (hav : w.remote_pavail.isAvail idx = false) : (r.doindex id w idx).Disjoint := by
  obtain ⟨hbut, hw⟩ := (disjoint_iff h).1 hd
  refine (disjoint_setFull (q := r.doindex id w idx)
    (v := { w with remote_pwish := w.remote_pwish.set idx }) h rfl).2 ⟨hbut, fun i hi => ?_⟩
  rw [get_pwish_set hs h hidx, if_neg]
  · exact hw i hi
  · rintro rfl
    exact absurd (hav.symm.trans hi) nofun

omit hs in
theorem pfreqOk_doindex (hp : r.PfreqOk nb_piece) : (r.doindex id w idx).PfreqOk nb_piece :=
  pfreqOk_setFull (v := { w with remote_pwish := w.remote_pwish.set idx })
    (q := r.doindex id w idx) h rfl rfl rfl (fun _ => rfl) hp

theorem sane_noindex : (r.noindex id w idx).Sane nb_piece := by
  have hpa := hs.pavail h
  have hpw : (w.remote_pwish.clear idx).length = nb_piece :=
    Bitfield.length_clear.trans (hs.pwish h)
  have hun := hs.unopened h
  exact (sane_setFull (v := { w with remote_pwish := w.remote_pwish.clear idx }) hs h hpa hpw
    hun).counters rfl rfl rfl Bitcount.size_dec

/-- A wish is counted once less, also when it was not there. -/
theorem pwishDrift_noindex (ho : w.notified_as_open = true) (hidx : idx < nb_piece) :
    (r.noindex id w idx).pwishDrift i =
      r.pwishDrift i - if i = idx ∧ w.remote_pwish.get idx = false then 1 else 0 := by
  have hc : (r.noindex id w idx).remote_pwish.get i =
      r.remote_pwish.get i + -if i = idx then 1 else 0 :=
    Bitcount.get_dec (hs.size_pwish ▸ hidx)
  rw [pwishDrift_setFull (q := r.noindex id w idx)
    (v := { w with remote_pwish := w.remote_pwish.clear idx }) h rfl hc,
    wishesPiece, wishesPiece, ho, Bool.true_and, Bool.true_and, Bitfield.get_clear]
  by_cases hii : i = idx
  · cases hget : w.remote_pwish.get idx <;> simp [hii, hget, sub_eq_add_neg]
  · simp [hii]

theorem pwishOk_noindex (ho : w.notified_as_open = true) (hp : r.PwishOk nb_piece) :
    (r.noindex id w idx).PwishOk nb_piece ↔ idx < nb_piece ∧ w.remote_pwish.get idx = true := by
  constructor
  · intro hp'
    have hidx : idx < nb_piece := hs.size_pwish ▸ (Bitcount.faults_dec.1 hp'.faults).2.1
    refine ⟨hidx, ?_⟩
    have hd := hp'.drift idx hidx
    rw [pwishDrift_noindex hs h ho hidx, hp.drift idx hidx] at hd
    simpa using hd
  · rintro ⟨hidx, hyes⟩
    have hpos := hp.pos h hidx (by rw [wishesPiece, ho, hyes]; rfl)
    refine ⟨Bitcount.faults_dec.2 ⟨hp.faults, hs.size_pwish ▸ hidx, hpos⟩, fun i hi => ?_⟩
    rw [pwishDrift_noindex hs h ho hidx, hp.drift i hi, hyes]
    simp

omit hs in
theorem disjoint_noindex (hd : r.Disjoint) : (r.noindex id w idx).Disjoint := by
  obtain ⟨hbut, hw⟩ := (disjoint_iff h).1 hd
  refine (disjoint_setFull (q := r.noindex id w idx)
    (v := { w with remote_pwish := w.remote_pwish.clear idx }) h rfl).2 ⟨hbut, fun i hi => ?_⟩
  rw [Bitfield.get_clear]
  split_ifs
  · rfl
  · exact hw i hi

omit hs in
theorem pfreqOk_noindex (hp : r.PfreqOk nb_piece) : (r.noindex id w idx).PfreqOk nb_piece :=
  pfreqOk_setFull (v := { w with remote_pwish := w.remote_pwish.clear idx })
    (q := r.noindex id w idx) h rfl rfl rfl (fun _ => rfl) hp

theorem sane_dofield (hbf : bf.length = nb_piece) : (r.dofield id w bf).Sane nb_piece := by
  have hpa := hs.pavail h
  have hun := hs.unopened h
  exact (sane_setFull (v := { w with remote_pwish := bf }) hs h hpa hbf hun).counters rfl rfl rfl
    (Bitcount.size_incField.trans Bitcount.size_decField)

theorem pwishOk_dofield (ho : w.notified_as_open = true) (hbf : bf.length = nb_piece)
    (hp : r.PwishOk nb_piece) : (r.dofield id w bf).PwishOk nb_piece := by
  refine ⟨?_, fun i hi => ?_⟩
  · refine Bitcount.faults_incField.2 ⟨Bitcount.faults_decField.2
      ⟨hp.faults, hs.size_pwish.trans (hs.pwish h).symm, fun i hi hget => ?_⟩, ?_⟩
    · refine hp.pos h (hs.size_pwish ▸ hi) ?_
      rw [wishesPiece, ho, hget]
      rfl
    · rw [Bitcount.size_decField, hs.size_pwish, hbf]
  · have hi' : i < r.remote_pwish.size := by rwa [hs.size_pwish]
    have hc : (r.dofield id w bf).remote_pwish.get i = r.remote_pwish.get i +
        (-(if w.remote_pwish.get i then 1 else 0) + if bf.get i then 1 else 0) := by
      show ((r.remote_pwish.decField w.remote_pwish).incField bf).get i = _
      rw [Bitcount.get_incField (by rwa [Bitcount.size_decField]), Bitcount.get_decField hi']
      omega
    rw [pwishDrift_setFull (q := r.dofield id w bf) (v := { w with remote_pwish := bf }) h rfl hc,
      hp.drift i hi, wishesPiece, wishesPiece, ho, Bool.true_and, Bool.true_and]
    ring

omit hs in
theorem disjoint_dofield (hd : r.DisjointBut id)
    (hno : ∀ i, w.remote_pavail.isAvail i = true → bf.get i = false) :
    (r.dofield id w bf).Disjoint :=
  (disjoint_setFull (q := r.dofield id w bf) (v := { w with remote_pwish := bf }) h rfl).2
    ⟨hd, hno⟩

omit hs in
theorem pfreqDrift_dofield : (r.dofield id w bf).pfreqDrift i = r.pfreqDrift i := by
  rw [pfreqDrift_setFull (q := r.dofield id w bf) (v := { w with remote_pwish := bf }) h rfl rfl
    (add_zero _).symm, add_zero]
  exact add_sub_cancel_right _ _

omit hs in
theorem pfreqOk_dofield (hp : r.PfreqOk nb_piece) : (r.dofield id w bf).PfreqOk nb_piece :=
  pfreqOk_setFull (v := { w with remote_pwish := bf }) (q := r.dofield id w bf) h rfl rfl rfl
    (fun _ => rfl) hp

end Wishes

/-! ### External connections -/

section Ecnx

variable (hs : r.Sane nb_piece)
include hs

theorem sane_ecnxOpened (h : r.ecnx_vapi_db.get slot = none) (hpa : List.length pa = nb_piece) :
    (r.ecnxOpened slot pa).Sane nb_piece := by
  refine ⟨Bitcount.size_incField.trans hs.size_pfreq, hs.size_pwish, hs.pavail, hs.pwish,
    hs.unopened, fun {j pa'} hj => ?_⟩
  rw [ecnxOpened, KeyedDb.get_link h] at hj
  split_ifs at hj
  · rw [← Option.some.inj hj]
    exact hpa
  · exact hs.ecnx hj

theorem pfreqOk_ecnxOpened (h : r.ecnx_vapi_db.get slot = none) (hpa : List.length pa = nb_piece)
    (hp : r.PfreqOk nb_piece) : (r.ecnxOpened slot pa).PfreqOk nb_piece := by
  refine ⟨Bitcount.faults_incField.2 ⟨hp.faults, hs.size_pfreq.trans hpa.symm⟩, fun i hi => ?_⟩
  have hd := hp.drift i hi
  rw [pfreqDrift, nbAvail] at hd ⊢
  rw [ecnxOpened]
  simp only [Bitcount.get_incField (hs.size_pfreq ▸ hi)]
  push_cast at hd ⊢
  rw [KeyedDb.count_link h, Pieceavail.isAvail]
  omega

theorem sane_ecnxClosed : (r.ecnxClosed slot pa).Sane nb_piece := by
  refine ⟨Bitcount.size_decField.trans hs.size_pfreq, hs.size_pwish, hs.pavail, hs.pwish,
    hs.unopened, fun {j pa'} hj => ?_⟩
  rw [ecnxClosed, KeyedDb.get_erase] at hj
  split_ifs at hj
  exact hs.ecnx hj

theorem pfreqOk_ecnxClosed (h : r.ecnx_vapi_db.get slot = some pa) (hp : r.PfreqOk nb_piece) :
    (r.ecnxClosed slot pa).PfreqOk nb_piece := by
  refine ⟨Bitcount.faults_decField.2 ⟨hp.faults, hs.size_pfreq.trans (hs.ecnx h).symm,
    fun i hi hget => ?_⟩, fun i hi => ?_⟩
  · have hpos := KeyedDb.count_pos (p := fun pa => pa.isAvail i) h hget
    have hd := hp.drift i (hs.size_pfreq ▸ hi)
    rw [pfreqDrift, nbAvail] at hd
    push_cast at hd
    omega
  · have hd := hp.drift i hi
    rw [pfreqDrift, nbAvail] at hd ⊢
    rw [ecnxClosed]
    simp only [Bitcount.get_decField (hs.size_pfreq ▸ hi)]
    push_cast at hd ⊢
    rw [KeyedDb.count_erase h, Pieceavail.isAvail]
    omega

end Ecnx

end Remote

end Neoip
