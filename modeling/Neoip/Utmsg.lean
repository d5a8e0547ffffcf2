/-
Neoip/Utmsg.lean

The extensions of a peer connection: `bt_swarm_full_utmsg_t`.

An extended handshake of the peer maps the names of extensions to opcodes.  For
each extension which is registered here, the opcode is kept in `convtable_db`
and the connection has an object in `cnx_vapi_db`; opcode `0` disables the
extension.  An object links itself into `cnx_vapi_db` when it is created, and
unlinks itself when it is deleted.

An object is known by its address, and `heap` has those which are not deleted.
`none` as a result says that the program has deleted an object a second time,
used one after its deletion, or gone through the end of a database.

Main result: whatever payloads the peer sends, none of this happens, the two
databases have the same extensions, and an opcode is the low byte of what the
peer has given (`tables_run`).  Nothing keeps the peer from giving two
extensions one opcode (`not_opcodesDistinct_sameOpcode`).
-/
import Neoip.Metainfo

namespace Neoip

/-- `bt_utmsgtype_t`. -/
inductive BtUtmsgtype
  | HANDSHAKE | UTPEX | BYTEACCT | PUNAVAIL | PIECEWISH | BCAST | FSTART
  deriving DecidableEq, Repr

/-- A registered `bt_utmsg_vapi_t`.  The handshake itself has none. -/
structure UtmsgVapi where
  utmsgtype : BtUtmsgtype
  utmsgstr : Datum
  no_handshake : utmsgtype ≠ .HANDSHAKE

/-- What a connection reads of its swarm. -/
structure UtmsgCfg where
  /-- `utmsg_vapi_db` of the swarm, in the order of the registrations. -/
  utmsg_vapi_db : List UtmsgVapi
  /-- The address of the peer, as a string. -/
  remote_addr : Datum

/-- `bt_swarm_full_utmsg_t`. -/
structure FullUtmsg where
  remote_prog_version : Datum
  /-- The address and the port, none when it is null. -/
  remote_tcp_listen_ipport : Option (Datum × UInt16)
  convtable_db : BtUtmsgtype → Option UInt8
  cnx_vapi_db : BtUtmsgtype → Option ℕ
  /-- The objects which are not deleted, each with the type of its `utmsg_vapi`. -/
  heap : ℕ → Option BtUtmsgtype
  next : ℕ

namespace FullUtmsg

/-- The keys of a `std::map`, in their order. -/
def utmsgtypes : List BtUtmsgtype :=
  [.HANDSHAKE, .UTPEX, .BYTEACCT, .PUNAVAIL, .PIECEWISH, .BCAST, .FSTART]

def ctor : FullUtmsg where
  remote_prog_version := []
  remote_tcp_listen_ipport := none
  -- the handshake is always 0 and always supported
  convtable_db := Function.update (fun _ => none) .HANDSHAKE (some 0)
  cnx_vapi_db := fun _ => none
  heap := fun _ => none
  next := 0

/-- `nipmem_delete`.  The destructor calls `cnx_vapi_unlink`. -/
def nipmemDelete (s : FullUtmsg) (p : ℕ) : Option FullUtmsg :=
  match s.heap p with
  | none => none
  | some utmsgtype =>
    some { s with
      heap := Function.update s.heap p none
      cnx_vapi_db := Function.update s.cnx_vapi_db utmsgtype none }

/-- `cnx_ctor` of a `bt_utmsg_vapi_t`, which calls `cnx_vapi_dolink`. -/
def cnxCtor (s : FullUtmsg) (utmsgtype : BtUtmsgtype) : FullUtmsg :=
  { s with
    heap := Function.update s.heap s.next (some utmsgtype)
    next := s.next + 1
    -- an insertion under a key which is there already does nothing
    cnx_vapi_db := match s.cnx_vapi_db utmsgtype with
      | some _ => s.cnx_vapi_db
      | none => Function.update s.cnx_vapi_db utmsgtype (some s.next) }

/-- `uint8_t opcode = integer().get()`. -/
def toOpcode (value : ℤ) : UInt8 := UInt8.ofNat (value % 2 ^ 8).toNat

/-- An extension which the peer disables. -/
def disable (s : FullUtmsg) (utmsgtype : BtUtmsgtype) : Option FullUtmsg :=
  match s.convtable_db utmsgtype with
  | none => some s
  | some _ =>
    match s.cnx_vapi_db utmsgtype with
    | none => none
    | some cnx_vapi => (s.nipmemDelete cnx_vapi).map fun s =>
      { s with
        cnx_vapi_db := Function.update s.cnx_vapi_db utmsgtype none
        convtable_db := Function.update s.convtable_db utmsgtype none }

/-- An extension to which the peer gives an opcode. -/
def enable (s : FullUtmsg) (utmsgtype : BtUtmsgtype) (opcode : UInt8) : FullUtmsg :=
  let s := { s with convtable_db := Function.update s.convtable_db utmsgtype (some opcode) }
  match s.cnx_vapi_db utmsgtype with
  | some _ => s
  | none => s.cnxCtor utmsgtype

/-- One round of the loop of `parse_handshake` over `utmsg_vapi_db`. -/
def parseOpcode (convtable_dvar : List (Datum × Dvar)) (s : FullUtmsg) (utmsg_vapi : UtmsgVapi) :
    Option FullUtmsg :=
  match Dvar.getInt utmsg_vapi.utmsgstr convtable_dvar with
  | none => some s
  | some value =>
    if toOpcode value = 0 then s.disable utmsg_vapi.utmsgtype
    else some (s.enable utmsg_vapi.utmsgtype (toOpcode value))

/-- The string `v` and the integer `p`. -/
def parseFields (cfg : UtmsgCfg) (inmap : List (Datum × Dvar)) (s : FullUtmsg) : FullUtmsg :=
  let s := match Dvar.getStr [0x76] inmap with
    | none => s
    | some str => { s with remote_prog_version := str }
  match Dvar.getInt [0x70] inmap with
  | none => s
  | some value =>
    let tcp_listen_port := UInt16.ofNat (value % 2 ^ 16).toNat
    { s with remote_tcp_listen_ipport :=
        if tcp_listen_port = 0 then none else some (cfg.remote_addr, tcp_listen_port) }

/-- `parse_handshake`.  It always returns `tokeep`. -/
def parseHandshake (cfg : UtmsgCfg) (pkt : Datum) (s : FullUtmsg) : Option FullUtmsg :=
  match Bencode.toDvar pkt with
  | some (.map inmap) =>
    let s := parseFields cfg inmap s
    match Dvar.getMap [0x6d] inmap with
    | none => some s
    | some convtable_dvar => cfg.utmsg_vapi_db.foldlM (parseOpcode convtable_dvar) s
  | _ => some s

/-- The type under which an opcode is received, the first one of those which have it. -/
def recvedUtmsgtype (s : FullUtmsg) (recved_opcode : UInt8) : Option BtUtmsgtype :=
  utmsgtypes.find? fun utmsgtype => s.convtable_db utmsgtype = some recved_opcode

/-- `parse_utmsg_payl`.  What an extension does with its payload changes nothing here. -/
def parseUtmsgPayl (cfg : UtmsgCfg) (s : FullUtmsg) : Datum → Option FullUtmsg
  | [] => some s
  | recved_opcode :: pkt =>
    match s.recvedUtmsgtype recved_opcode with
    | none => some s
    | some .HANDSHAKE => s.parseHandshake cfg pkt
    | some utmsgtype =>
      match s.cnx_vapi_db utmsgtype with
      | none => none
      | some cnx_vapi => (s.heap cnx_vapi).map fun _ => s

/-- The connection after the payloads, received one after the other. -/
def recv (cfg : UtmsgCfg) (pkts : List Datum) : Option FullUtmsg :=
  pkts.foldlM (parseUtmsgPayl cfg) ctor

/-- The loop of the destructor: each round deletes the first object of `cnx_vapi_db`. -/
def dtor (s : FullUtmsg) : Option FullUtmsg :=
  utmsgtypes.foldlM (fun s utmsgtype =>
    match s.cnx_vapi_db utmsgtype with
    | none => some s
    | some cnx_vapi => s.nipmemDelete cnx_vapi) s

variable {cfg : UtmsgCfg} {s s' : FullUtmsg} {utmsgtype : BtUtmsgtype} {opcode : UInt8} {p : ℕ}
  {pkts : List Datum} {given : BtUtmsgtype → UInt8 → Prop}

/-! ### The databases -/

/-- The two databases have the same extensions, apart from the handshake. -/
def SameExtensions (s : FullUtmsg) : Prop :=
  ∀ utmsgtype, utmsgtype ≠ .HANDSHAKE →
    ((s.convtable_db utmsgtype).isSome ↔ (s.cnx_vapi_db utmsgtype).isSome)

/-- No two extensions share an opcode. -/
def OpcodesDistinct (s : FullUtmsg) : Prop :=
  ∀ utmsgtype utmsgtype' opcode, s.convtable_db utmsgtype = some opcode →
    s.convtable_db utmsgtype' = some opcode → utmsgtype = utmsgtype'

/-- The objects of the extensions are those which are not deleted. -/
def Linked (s : FullUtmsg) : Prop :=
  ∀ utmsgtype p, s.cnx_vapi_db utmsgtype = some p ↔ s.heap p = some utmsgtype

/-- The extensions have the objects which are not deleted, and opcodes which the peer gave. -/
structure Inv (given : BtUtmsgtype → UInt8 → Prop) (s : FullUtmsg) : Prop where
  handshake : s.convtable_db .HANDSHAKE = some 0
  no_object : s.cnx_vapi_db .HANDSHAKE = none
  same : s.SameExtensions
  linked : s.Linked
  fresh : ∀ p utmsgtype, s.heap p = some utmsgtype → p < s.next
  given : ∀ utmsgtype opcode, utmsgtype ≠ .HANDSHAKE → s.convtable_db utmsgtype = some opcode →
    opcode ≠ 0 ∧ given utmsgtype opcode

theorem inv_ctor : Inv given ctor where
  handshake := rfl
  no_object := rfl
  same utmsgtype hne := by simp [ctor, Function.update_of_ne hne]
  linked utmsgtype p := by simp [ctor]
  fresh p utmsgtype h := by cases h
  given utmsgtype opcode hne h := by simp [ctor, Function.update_of_ne hne] at h

/-- An object of `cnx_vapi_db` is not deleted, and deleting it takes it out of there. -/
theorem Linked.nipmemDelete_eq (h : s.Linked) (hp : s.cnx_vapi_db utmsgtype = some p) :
    s.nipmemDelete p = some { s with
      heap := Function.update s.heap p none
      cnx_vapi_db := Function.update s.cnx_vapi_db utmsgtype none } := by
  rw [nipmemDelete, (h utmsgtype p).1 hp]

theorem Linked.removed (h : s.Linked) (hp : s.cnx_vapi_db utmsgtype = some p) : Linked
    { s with
      heap := Function.update s.heap p none
      cnx_vapi_db := Function.update s.cnx_vapi_db utmsgtype none } := by
  intro u q
  show Function.update s.cnx_vapi_db utmsgtype none u = some q ↔
    Function.update s.heap p none q = some u
  by_cases heq : u = utmsgtype
  · subst heq
    rw [Function.update_self, Function.update_apply]
    split_ifs with hq
    · simp
    · rw [← h, hp, Option.some.injEq]
      exact iff_of_false nofun fun heq => hq heq.symm
  · rw [Function.update_of_ne heq, Function.update_apply]
    split_ifs with hq
    · -- the object of one extension is not the one of another
      subst hq
      rw [h, (h utmsgtype q).1 hp, Option.some.injEq]
      exact iff_of_false (fun h => heq h.symm) nofun
    · exact h u q

/-- The object of an extension and the extension itself are removed together. -/
theorem Inv.removed (h : Inv given s) (hne : utmsgtype ≠ .HANDSHAKE)
    (hp : s.cnx_vapi_db utmsgtype = some p) : Inv given
      { s with
        heap := Function.update s.heap p none
        cnx_vapi_db := Function.update s.cnx_vapi_db utmsgtype none
        convtable_db := Function.update s.convtable_db utmsgtype none } where
  handshake := by
    show Function.update s.convtable_db utmsgtype none .HANDSHAKE = some 0
    rw [Function.update_of_ne hne.symm, h.handshake]
  no_object := by
    show Function.update s.cnx_vapi_db utmsgtype none .HANDSHAKE = none
    rw [Function.update_of_ne hne.symm, h.no_object]
  same u hu := by
    by_cases heq : u = utmsgtype
    · subst heq
      simp
    · simpa [Function.update_of_ne heq] using h.same u hu
  linked := h.linked.removed hp
  fresh q u hq := by
    dsimp only at hq
    rw [Function.update_apply] at hq
    split_ifs at hq
    exact h.fresh q u hq
  given u op hu hconv := by
    dsimp only at hconv
    rw [Function.update_apply] at hconv
    split_ifs at hconv
    exact h.given u op hu hconv

theorem Inv.disable (h : Inv given s) (hne : utmsgtype ≠ .HANDSHAKE) :
    ∃ s', s.disable utmsgtype = some s' ∧ Inv given s' := by
  rw [FullUtmsg.disable]
  cases hconv : s.convtable_db utmsgtype with
  | none => exact ⟨s, rfl, h⟩
  | some op =>
    have hsome : (s.cnx_vapi_db utmsgtype).isSome := (h.same utmsgtype hne).1 (by rw [hconv]; rfl)
    obtain ⟨p, hp⟩ := Option.isSome_iff_exists.1 hsome
    simp only [hp]
    rw [h.linked.nipmemDelete_eq hp, Option.map_some]
    refine ⟨_, rfl, ?_⟩
    dsimp only
    rw [Function.update_idem]
    exact h.removed hne hp

/-- The extension gets the opcode, and an object if it has none yet. -/
theorem Inv.enable (h : Inv given s) (hne : utmsgtype ≠ .HANDSHAKE) (hop : opcode ≠ 0)
    (hgiven : given utmsgtype opcode) : Inv given (s.enable utmsgtype opcode) := by
  have hgiven' : ∀ u op, u ≠ .HANDSHAKE →
      Function.update s.convtable_db utmsgtype (some opcode) u = some op → op ≠ 0 ∧ given u op := by
    intro u op hu hconv
    rw [Function.update_apply] at hconv
    split_ifs at hconv with heq
    · obtain rfl := Option.some.inj hconv
      rw [heq]
      exact ⟨hop, hgiven⟩
    · exact h.given u op hu hconv
  have hhandshake : Function.update s.convtable_db utmsgtype (some opcode) .HANDSHAKE = some 0 := by
    rw [Function.update_of_ne hne.symm, h.handshake]
  rw [FullUtmsg.enable]
  cases hp : s.cnx_vapi_db utmsgtype with
  | some p =>
    refine ⟨hhandshake, h.no_object, fun u hu => ?_, h.linked, h.fresh, hgiven'⟩
    by_cases heq : u = utmsgtype
    · subst heq
      simp [hp]
    · simpa [Function.update_of_ne heq] using h.same u hu
  | none =>
    have hfree : ∀ q, s.heap q ≠ some utmsgtype := by
      intro q hq
      rw [← h.linked utmsgtype q, hp] at hq
      cases hq
    simp only [cnxCtor, hp]
    refine ⟨hhandshake, ?_, fun u hu => ?_, fun u q => ?_, fun q u hq => ?_, hgiven'⟩
    · show Function.update s.cnx_vapi_db utmsgtype (some s.next) .HANDSHAKE = none
      rw [Function.update_of_ne hne.symm, h.no_object]
    · by_cases heq : u = utmsgtype
      · subst heq
        simp
      · simpa [Function.update_of_ne heq] using h.same u hu
    · show Function.update s.cnx_vapi_db utmsgtype (some s.next) u = some q ↔
        Function.update s.heap s.next (some utmsgtype) q = some u
      by_cases heq : u = utmsgtype
      · subst heq
        rw [Function.update_self, Function.update_apply, Option.some.injEq]
        split_ifs with hq
        · exact iff_of_true hq.symm rfl
        · exact iff_of_false (fun heq => hq heq.symm) (hfree q)
      · rw [Function.update_of_ne heq, Function.update_apply, h.linked]
        split_ifs with hq
        · -- the new address was not in use
          subst hq
          refine iff_of_false (fun hq => (h.fresh _ u hq).false) fun hq => ?_
          exact heq (Option.some.inj hq).symm
        · rfl
    · show q < s.next + 1
      dsimp only at hq
      rw [Function.update_apply] at hq
      split_ifs at hq with heq
      · rw [heq]
        exact Nat.lt_succ_self _
      · exact Nat.lt_succ_of_lt (h.fresh q u hq)

/-! ### Payloads -/

theorem exists_foldlM {α σ : Type} {f : σ → α → Option σ} {P : σ → Prop} {l : List α}
    (hf : ∀ a ∈ l, ∀ s, P s → ∃ s', f s a = some s' ∧ P s') {s : σ} (hs : P s) :
    ∃ s', l.foldlM f s = some s' ∧ P s' := by
  induction l generalizing s with
  | nil => exact ⟨s, rfl, hs⟩
  | cons a l ih =>
    obtain ⟨s₁, heq, hs₁⟩ := hf a List.mem_cons_self s hs
    obtain ⟨s₂, heq₂, hs₂⟩ := ih (fun b hb => hf b (List.mem_cons_of_mem _ hb)) hs₁
    refine ⟨s₂, ?_, hs₂⟩
    rw [List.foldlM_cons, heq]
    exact heq₂

/-- The payload is a handshake which gives the opcode to the extension. -/
def Gives (cfg : UtmsgCfg) (pkt : Datum) (utmsgtype : BtUtmsgtype) (opcode : UInt8) : Prop :=
  ∃ body inmap convtable_dvar value, ∃ utmsg_vapi ∈ cfg.utmsg_vapi_db,
    pkt = 0 :: body ∧ Bencode.toDvar body = some (.map inmap) ∧
      Dvar.getMap [0x6d] inmap = some convtable_dvar ∧ utmsg_vapi.utmsgtype = utmsgtype ∧
      Dvar.getInt utmsg_vapi.utmsgstr convtable_dvar = some value ∧ toOpcode value = opcode

theorem Inv.parseOpcode (h : Inv given s) {convtable_dvar : List (Datum × Dvar)}
    (utmsg_vapi : UtmsgVapi)
    (hgiven : ∀ value, Dvar.getInt utmsg_vapi.utmsgstr convtable_dvar = some value →
      given utmsg_vapi.utmsgtype (toOpcode value)) :
    ∃ s', FullUtmsg.parseOpcode convtable_dvar s utmsg_vapi = some s' ∧ Inv given s' := by
  rw [FullUtmsg.parseOpcode]
  cases hvalue : Dvar.getInt utmsg_vapi.utmsgstr convtable_dvar with
  | none => exact ⟨s, rfl, h⟩
  | some value =>
    dsimp only
    split_ifs with hop
    · exact h.disable utmsg_vapi.no_handshake
    · exact ⟨_, rfl, h.enable utmsg_vapi.no_handshake hop (hgiven value hvalue)⟩

theorem Inv.parseFields (h : Inv given s) (cfg : UtmsgCfg) (inmap : List (Datum × Dvar)) :
    Inv given (FullUtmsg.parseFields cfg inmap s) := by
  have hstep : ∀ s', s'.convtable_db = s.convtable_db → s'.cnx_vapi_db = s.cnx_vapi_db →
      s'.heap = s.heap → s'.next = s.next → Inv given s' := by
    intro s' hconv hcnx hheap hnext
    refine ⟨hconv ▸ h.handshake, hcnx ▸ h.no_object, ?_, ?_, ?_, hconv ▸ h.given⟩
    · intro u hu
      rw [hconv, hcnx]
      exact h.same u hu
    · intro u q
      rw [hcnx, hheap]
      exact h.linked u q
    · rw [hheap, hnext]
      exact h.fresh
  unfold FullUtmsg.parseFields
  dsimp only
  split
  · split
    · exact h
    · exact hstep _ rfl rfl rfl rfl
  · split
    · exact hstep _ rfl rfl rfl rfl
    · exact hstep _ rfl rfl rfl rfl

theorem Inv.parseHandshake (h : Inv given s) {body : Datum}
    (hgiven : ∀ utmsgtype opcode, Gives cfg (0 :: body) utmsgtype opcode → given utmsgtype opcode) :
    ∃ s', s.parseHandshake cfg body = some s' ∧ Inv given s' := by
  unfold FullUtmsg.parseHandshake
  split
  next inmap hdvar =>
    dsimp only
    have hfields := h.parseFields cfg inmap
    cases hconv : Dvar.getMap [0x6d] inmap with
    | none => exact ⟨_, rfl, hfields⟩
    | some convtable_dvar =>
      refine exists_foldlM (fun utmsg_vapi hmem s hs => ?_) hfields
      refine hs.parseOpcode utmsg_vapi fun value hvalue => ?_
      exact hgiven _ _ ⟨body, inmap, convtable_dvar, value, utmsg_vapi, hmem, rfl, hdvar, hconv,
        rfl, hvalue, rfl⟩
  next => exact ⟨s, rfl, h⟩

/-- No payload makes the program touch an object which is deleted. -/
theorem Inv.parseUtmsgPayl (h : Inv given s) {pkt : Datum}
    (hgiven : ∀ utmsgtype opcode, Gives cfg pkt utmsgtype opcode → given utmsgtype opcode) :
    ∃ s', s.parseUtmsgPayl cfg pkt = some s' ∧ Inv given s' := by
  cases pkt with
  | nil => exact ⟨s, rfl, h⟩
  | cons recved_opcode body =>
    rw [FullUtmsg.parseUtmsgPayl]
    cases hrecved : s.recvedUtmsgtype recved_opcode with
    | none => exact ⟨s, rfl, h⟩
    | some utmsgtype =>
      have hconv : s.convtable_db utmsgtype = some recved_opcode := by
        simpa using List.find?_some hrecved
      by_cases hne : utmsgtype = .HANDSHAKE
      · subst hne
        rw [h.handshake] at hconv
        obtain rfl := Option.some.inj hconv
        exact h.parseHandshake hgiven
      · have hsome : (s.cnx_vapi_db utmsgtype).isSome :=
          (h.same utmsgtype hne).1 (by rw [hconv]; rfl)
        obtain ⟨p, hp⟩ := Option.isSome_iff_exists.1 hsome
        refine ⟨s, ?_, h⟩
        cases utmsgtype with
        | HANDSHAKE => exact absurd rfl hne
        | _ =>
          dsimp only
          rw [hp]
          dsimp only
          rw [(h.linked _ p).1 hp, Option.map_some]

theorem inv_recv (cfg : UtmsgCfg) (pkts : List Datum) :
    ∃ s, recv cfg pkts = some s ∧
      Inv (fun utmsgtype opcode => ∃ pkt ∈ pkts, Gives cfg pkt utmsgtype opcode) s :=
  exists_foldlM (fun pkt hpkt _ hs => hs.parseUtmsgPayl fun _ _ hgives => ⟨pkt, hpkt, hgives⟩)
    inv_ctor

theorem Linked.dtor (h : s.Linked) : (s.dtor).isSome := by
  obtain ⟨s', heq, -⟩ : ∃ s', s.dtor = some s' ∧ s'.Linked := by
    refine exists_foldlM (fun utmsgtype _ s h => ?_) h
    cases hp : s.cnx_vapi_db utmsgtype with
    | none => exact ⟨s, rfl, h⟩
    | some p => exact ⟨_, h.nipmemDelete_eq hp, h.removed hp⟩
  rw [heq]
  rfl

/-- **Handshake tables**: whatever payloads the peer sends, no object is deleted twice or used
after its deletion, not by the destructor either; the databases have the same extensions, each with
the object which is not deleted; and each extension has the low byte, which is not `0`, of an
integer that the peer gave for it, so that two share an opcode only when the peer gave both of them
the same. -/
theorem tables_run (cfg : UtmsgCfg) (pkts : List Datum) :
    ∃ s, recv cfg pkts = some s ∧ s.dtor.isSome ∧ s.SameExtensions ∧ s.Linked ∧
      s.convtable_db .HANDSHAKE = some 0 ∧
      ∀ utmsgtype opcode, utmsgtype ≠ .HANDSHAKE → s.convtable_db utmsgtype = some opcode →
        opcode ≠ 0 ∧ ∃ pkt ∈ pkts, Gives cfg pkt utmsgtype opcode := by
  obtain ⟨s, heq, h⟩ := inv_recv cfg pkts
  exact ⟨s, heq, h.linked.dtor, h.same, h.linked, h.handshake, h.given⟩

/-- Two extensions, with the names `a` and `b`. -/
def sampleUtmsgCfg : UtmsgCfg where
  utmsg_vapi_db := [⟨.UTPEX, [0x61], nofun⟩, ⟨.FSTART, [0x62], nofun⟩]
  remote_addr := []

/-- The handshake `d1:md1:ai1e1:bi1eee`. -/
def sameOpcode : Datum :=
  [0x00, 0x64, 0x31, 0x3a, 0x6d, 0x64, 0x31, 0x3a, 0x61, 0x69, 0x31, 0x65, 0x31, 0x3a, 0x62, 0x69,
    0x31, 0x65, 0x65, 0x65]

/-- The peer gives both extensions the opcode `1`. -/
theorem not_opcodesDistinct_sameOpcode :
    ∃ s, recv sampleUtmsgCfg [sameOpcode] = some s ∧ ¬(s.SameExtensions ∧ s.OpcodesDistinct) := by
  obtain ⟨s, heq, -⟩ := inv_recv sampleUtmsgCfg [sameOpcode]
  have hconv : (recv sampleUtmsgCfg [sameOpcode]).map (fun s => (s.convtable_db .UTPEX,
      s.convtable_db .FSTART)) = some (some 1, some 1) := by decide
  rw [heq, Option.map_some, Option.some.injEq, Prod.mk.injEq] at hconv
  refine ⟨s, heq, fun h => ?_⟩
  cases h.2 .UTPEX .FSTART 1 hconv.1 hconv.2

end FullUtmsg

end Neoip
