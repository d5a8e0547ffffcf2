/-
Neoip/Piecewish.lean

The extension by which a peer tells which pieces it wishes
(`bt_utmsg_piecewish_t` and `bt_utmsg_piecewish_cnx_t`).

The sender keeps `local_pwish` and sends what changes in it; the receiver is a
`Swarm`, which records what its peer wishes.  A packet is the bencoding of a
map, less the type of the message, which is read before `parse_pkt`.

The encoder puts the pieces which are newly wished and those which are no more
wished in one map, under two keys, and the parser returns after the first key
that it finds.  So a packet brings the record of the receiver from `old` to
`new` exactly when it has one key at most (`remote_pwish_parsePkt_iff`).
-/
import Neoip.Bencode
import Neoip.Swarm

namespace Neoip

namespace Piecewish

/-! ### Packets -/

/-- `"df"` -/
def keyDowishField : Datum := [0x64, 0x66]

/-- `"di"` -/
def keyDowishIndex : Datum := [0x64, 0x69]

/-- `"ni"` -/
def keyNowishIndex : Datum := [0x6e, 0x69]

def dvarIndexes (idxs : List ℕ) : List Dvar := idxs.map fun idx : ℕ => Dvar.integer idx

def buildCmdDowishField (wishfield : Bitfield) : Datum :=
  Bencode.fromDvar (.map (Dvar.mapInsert keyDowishField (.string wishfield.toDatum) []))

/-- The walk over the bits which are different, by `next_set`. -/
def diffIndexes (old_piecewish new_piecewish : Bitfield) : List ℕ :=
  let diff_piecewish := old_piecewish.xor new_piecewish
  (List.range diff_piecewish.length).filter fun idx => diff_piecewish.get idx

/-- The pieces which are newly wished. -/
def doIndexes (old_piecewish new_piecewish : Bitfield) : List ℕ :=
  (diffIndexes old_piecewish new_piecewish).filter fun idx => new_piecewish.get idx

/-- The pieces which are no more wished. -/
def noIndexes (old_piecewish new_piecewish : Bitfield) : List ℕ :=
  (diffIndexes old_piecewish new_piecewish).filter fun idx => !new_piecewish.get idx

def buildCmdDeltaBitfield (old_piecewish new_piecewish : Bitfield) : Datum :=
  let doidx_dvar := dvarIndexes (doIndexes old_piecewish new_piecewish)
  let noidx_dvar := dvarIndexes (noIndexes old_piecewish new_piecewish)
  let inmap := if doidx_dvar.isEmpty then [] else
    Dvar.mapInsert keyDowishIndex (.array doidx_dvar) []
  let inmap := if noidx_dvar.isEmpty then inmap else
    Dvar.mapInsert keyNowishIndex (.array noidx_dvar) inmap
  Bencode.fromDvar (.map inmap)

def buildCmdPieceidx (cmd_str : Datum) (pieceidx : ℕ) : Datum :=
  Bencode.fromDvar (.map (Dvar.mapInsert cmd_str (.array (dvarIndexes [pieceidx])) []))

def buildCmdDowishPieceidx (pieceidx : ℕ) : Datum := buildCmdPieceidx keyDowishIndex pieceidx

def buildCmdNowishPieceidx (pieceidx : ℕ) : Datum := buildCmdPieceidx keyNowishIndex pieceidx

/-! ### The receiver -/

section Receiver

variable {cfg : SwarmCfg} (env : SwarmEnv cfg) (id : ℕ)

def isUint32Ok (value : ℤ) : Bool := value ≤ 2 ^ 32 - 1

def toUint32 (value : ℤ) : ℕ := (value % 2 ^ 32).toNat

/-- The loop of `parse_dowish_index` and `parse_nowish_index`: it stops at the first element
which is not a `uint32_t`, and where the connection is closed. -/
def parseIndexes (notify : Swarm → ℕ → Swarm) : List Dvar → Swarm → Swarm
  | .integer value :: dvar_arr, s =>
    if isUint32Ok value then
      let s := notify s (toUint32 value)
      if (s.full_db.get id).isSome then parseIndexes notify dvar_arr s else s
    else s
  | _, s => s

def parseDowishIndex (dvar_arr : List Dvar) (s : Swarm) : Swarm :=
  parseIndexes id (fun s idx => s.notifyUtmsgDowishIndex env id idx) dvar_arr s

def parseNowishIndex (dvar_arr : List Dvar) (s : Swarm) : Swarm :=
  parseIndexes id (fun s idx => s.notifyUtmsgNowishIndex id idx) dvar_arr s

def parsePkt (pkt : Datum) (s : Swarm) : Swarm :=
  match Bencode.toDvar pkt with
  | some (.map inmap) =>
    match inmap.lookup keyDowishField with
    | some (.string field_str) => s.parseDowishField env id field_str
    | _ =>
      match inmap.lookup keyDowishIndex with
      | some (.array dvar_arr) => parseDowishIndex env id dvar_arr s
      | _ =>
        match inmap.lookup keyNowishIndex with
        | some (.array dvar_arr) => parseNowishIndex id dvar_arr s
        | _ => s
  | _ => s

end Receiver

/-! ### What the packets say -/

section Packets

variable {old new : Bitfield} {i : ℕ}

theorem mem_diffIndexes (hlen : new.length = old.length) :
    i ∈ diffIndexes old new ↔ old.get i ≠ new.get i := by
  have hxor : (old.xor new).length = old.length := List.length_mapIdx
  rw [diffIndexes, List.mem_filter, List.mem_range, hxor, Bitfield.get_xor]
  by_cases hi : i < old.length
  · rw [decide_eq_true hi]
    cases old.get i <;> cases new.get i <;> simp [hi]
  · rw [Bitfield.get_of_le (Nat.le_of_not_lt hi), Bitfield.get_of_le (by omega)]
    simp [hi]

theorem mem_doIndexes (hlen : new.length = old.length) :
    i ∈ doIndexes old new ↔ old.get i = false ∧ new.get i = true := by
  rw [doIndexes, List.mem_filter, mem_diffIndexes hlen]
  cases old.get i <;> cases new.get i <;> simp

theorem mem_noIndexes (hlen : new.length = old.length) :
    i ∈ noIndexes old new ↔ old.get i = true ∧ new.get i = false := by
  rw [noIndexes, List.mem_filter, mem_diffIndexes hlen]
  cases old.get i <;> cases new.get i <;> simp

theorem okArr_dvarIndexes {idxs : List ℕ} (h : ∀ i ∈ idxs, i < 2 ^ 63) :
    Dvar.OkArr (dvarIndexes idxs) := by
  induction idxs with
  | nil => exact trivial
  | cons i idxs ih =>
    have hi := h i List.mem_cons_self
    rw [dvarIndexes, List.map_cons, Dvar.OkArr, Dvar.Ok]
    exact ⟨by omega, ih fun j hj => h j (List.mem_cons_of_mem _ hj)⟩

/-- What is under the two keys of a packet. -/
theorem toDvar_buildCmdDeltaBitfield (hlen : new.length = old.length) (hsize : old.length < 2 ^ 63) :
    ∃ inmap, Bencode.toDvar (buildCmdDeltaBitfield old new) = some (.map inmap) ∧
      inmap.lookup keyDowishField = none ∧
      inmap.lookup keyDowishIndex = (if doIndexes old new = [] then none
        else some (.array (dvarIndexes (doIndexes old new)))) ∧
      inmap.lookup keyNowishIndex = if noIndexes old new = [] then none
        else some (.array (dvarIndexes (noIndexes old new))) := by
  have hlt : ∀ i, old.get i ≠ new.get i → i < 2 ^ 63 := by
    intro i hi
    rw [← mem_diffIndexes hlen, diffIndexes, List.mem_filter, List.mem_range] at hi
    have hxor : (old.xor new).length = old.length := List.length_mapIdx
    omega
  have hdo : Dvar.OkArr (dvarIndexes (doIndexes old new)) := okArr_dvarIndexes fun i hi =>
    hlt i ((mem_diffIndexes hlen).1 (List.mem_filter.1 hi).1)
  have hno : Dvar.OkArr (dvarIndexes (noIndexes old new)) := okArr_dvarIndexes fun i hi =>
    hlt i ((mem_diffIndexes hlen).1 (List.mem_filter.1 hi).1)
  have hempty : ∀ l : List ℕ, (dvarIndexes l).isEmpty = decide (l = []) := by
    intro l
    cases l <;> rfl
  rw [buildCmdDeltaBitfield]
  simp only [hempty, decide_eq_true_eq]
  generalize doIndexes old new = dol at hdo ⊢
  generalize noIndexes old new = nol at hno ⊢
  have hdi : keyDowishIndex.length < 2 ^ 31 := by decide
  have hni : keyNowishIndex.length < 2 ^ 31 := by decide
  have hlt : keyDowishIndex < keyNowishIndex := by decide
  split_ifs with hd hn hn
  · exact ⟨[], Bencode.toDvar_fromDvar ⟨List.Pairwise.nil, trivial⟩, rfl, rfl, rfl⟩
  · refine ⟨_, Bencode.toDvar_fromDvar ⟨List.pairwise_singleton _ _, hdi, hdo, trivial⟩, ?_⟩
    exact ⟨rfl, rfl, rfl⟩
  · refine ⟨_, Bencode.toDvar_fromDvar ⟨List.pairwise_singleton _ _, hni, hno, trivial⟩, ?_⟩
    exact ⟨rfl, rfl, rfl⟩
  · refine ⟨_, Bencode.toDvar_fromDvar ⟨?_, hdi, hdo, hni, hno, trivial⟩, rfl, rfl, rfl⟩
    exact List.pairwise_pair.2 hlt

end Packets

/-! ### One packet -/

section Packet

variable {cfg : SwarmCfg} {env : SwarmEnv cfg} {id i : ℕ} {s : Swarm} {w : SwarmFull}
  {old new : Bitfield}

theorem get_autodelete : (s.autodelete env id).full_db.get id = none := by
  rw [Swarm.autodelete]
  rcases h : s.full_db.get id with - | w
  · exact h
  · exact (KeyedDb.get_erase).trans (if_pos rfl)

theorem get_notifyUtmsgDowishIndex (h : s.full_db.get id = some w) :
    (s.notifyUtmsgDowishIndex env id i).full_db.get id =
      if w.remote_pavail.isAvail i then none
      else some { w with remote_pwish := w.remote_pwish.set i } := by
  simp only [Swarm.notifyUtmsgDowishIndex, h]
  split_ifs
  · exact get_autodelete
  · exact KeyedDb.get_modify_self.trans (by rw [h]; rfl)

theorem get_notifyUtmsgNowishIndex (h : s.full_db.get id = some w) :
    (s.notifyUtmsgNowishIndex id i).full_db.get id =
      some { w with remote_pwish := w.remote_pwish.clear i } := by
  simp only [Swarm.notifyUtmsgNowishIndex, h]
  exact KeyedDb.get_modify_self.trans (by rw [h]; rfl)

theorem isUint32Ok_iff : isUint32Ok (i : ℤ) = true ↔ i < 2 ^ 32 := by
  rw [isUint32Ok, decide_eq_true_eq]
  omega

theorem toUint32_cast (h : i < 2 ^ 32) : toUint32 (i : ℤ) = i := by
  rw [toUint32]
  omega

/-- The loop takes the indexes up to the first which is no `uint32_t`, unless one of them
closes the connection. -/
theorem parseIndexes_cases {notify : Swarm → ℕ → Swarm} {g : Bitfield → ℕ → Bitfield}
    {stop : Pieceavail → ℕ → Bool}
    (hnotify : ∀ {s : Swarm} {w i}, s.full_db.get id = some w → (notify s i).full_db.get id =
      if stop w.remote_pavail i then none else some { w with remote_pwish := g w.remote_pwish i })
    (h : s.full_db.get id = some w) (idxs : List ℕ) :
    ((∃ i ∈ idxs, stop w.remote_pavail i = true) ∧
      (parseIndexes id notify (dvarIndexes idxs) s).full_db.get id = none) ∨
    ∃ done rest, idxs = done ++ rest ∧
      (∀ i ∈ done, i < 2 ^ 32 ∧ stop w.remote_pavail i = false) ∧
      (∀ i, rest.head? = some i → 2 ^ 32 ≤ i) ∧
      (parseIndexes id notify (dvarIndexes idxs) s).full_db.get id =
        some { w with remote_pwish := done.foldl g w.remote_pwish } := by
  induction idxs generalizing s w with
  | nil => exact .inr ⟨[], [], rfl, by simp, by simp, h⟩
  | cons i idxs ih =>
    rw [dvarIndexes, List.map_cons, parseIndexes]
    by_cases hi : i < 2 ^ 32
    · rw [if_pos (isUint32Ok_iff.2 hi), toUint32_cast hi]
      have hget := hnotify (i := i) h
      cases hstop : stop w.remote_pavail i with
      | true =>
        rw [hstop, if_pos rfl] at hget
        left
        refine ⟨⟨i, List.mem_cons_self, hstop⟩, ?_⟩
        simp only [hget, Option.isSome_none, Bool.false_eq_true, if_false]
      | false =>
        rw [hstop, if_neg Bool.false_ne_true] at hget
        simp only [hget, Option.isSome_some, if_true]
        rcases ih hget with ⟨⟨j, hj, hs⟩, hnone⟩ | ⟨done, rest, hidxs, hdone, hrest, hsome⟩
        · exact .inl ⟨⟨j, List.mem_cons_of_mem _ hj, hs⟩, hnone⟩
        · refine .inr ⟨i :: done, rest, by rw [hidxs, List.cons_append], ?_, hrest, hsome⟩
          intro j hj
          rcases List.mem_cons.1 hj with rfl | hj
          · exact ⟨hi, hstop⟩
          · exact hdone j hj
    · rw [if_neg (by rw [isUint32Ok_iff]; exact hi)]
      refine .inr ⟨[], i :: idxs, rfl, by simp, ?_, h⟩
      intro j hj
      rw [List.head?_cons, Option.some.injEq] at hj
      omega

theorem get_foldl_set (idxs : List ℕ) (bf : Bitfield) :
    (idxs.foldl (fun bf i => bf.set i) bf).get i =
      (bf.get i || decide (i ∈ idxs ∧ i < bf.length)) := by
  induction idxs generalizing bf with
  | nil => simp
  | cons j idxs ih =>
    rw [List.foldl_cons, ih, Bitfield.get_set, Bitfield.length_set]
    by_cases hij : i = j
    · by_cases hi : i < bf.length <;> simp [hij, hij ▸ hi]
    · simp [hij]

theorem get_foldl_clear (idxs : List ℕ) (bf : Bitfield) :
    (idxs.foldl Bitfield.clear bf).get i = (bf.get i && decide (i ∉ idxs)) := by
  induction idxs generalizing bf with
  | nil => simp
  | cons j idxs ih =>
    rw [List.foldl_cons, ih, Bitfield.get_clear]
    by_cases hij : i = j
    · simp [hij]
    · simp [hij]

theorem length_foldl_set (idxs : List ℕ) (bf : Bitfield) :
    (idxs.foldl (fun bf i => bf.set i) bf).length = bf.length := by
  induction idxs generalizing bf with
  | nil => rfl
  | cons j idxs ih => rw [List.foldl_cons, ih, Bitfield.length_set]

theorem length_foldl_clear (idxs : List ℕ) (bf : Bitfield) :
    (idxs.foldl Bitfield.clear bf).length = bf.length := by
  induction idxs generalizing bf with
  | nil => rfl
  | cons j idxs ih => rw [List.foldl_cons, ih, Bitfield.length_clear]

/-- Between the two fields, pieces are only newly wished, or only no more wished. -/
def OneWay (old new : Bitfield) : Prop :=
  (∀ i, old.get i = true → new.get i = true) ∨ ∀ i, new.get i = true → old.get i = true

/-- What a packet for `old` and `new` needs to be understood. -/
structure DeltaFits (old new : Bitfield) (remote_pavail : Pieceavail) : Prop where
  oneWay : OneWay old new
  uint32 : ∀ i, old.get i ≠ new.get i → i < 2 ^ 32
  /-- A peer which wishes a piece that it has is closed. -/
  unavail : ∀ i, old.get i = false → new.get i = true → remote_pavail.isAvail i = false

theorem foldl_set_doIndexes (hlen : new.length = old.length)
    (hone : ∀ i, old.get i = true → new.get i = true) :
    (doIndexes old new).foldl (fun bf i => bf.set i) old = new := by
  apply Bitfield.ext_get
  · rw [length_foldl_set, hlen]
  · intro i hi
    rw [length_foldl_set] at hi
    simp only [get_foldl_set, mem_doIndexes hlen]
    have := hone i
    cases hold : old.get i <;> cases hnew : new.get i <;> simp_all

theorem foldl_clear_noIndexes (hlen : new.length = old.length)
    (hone : ∀ i, new.get i = true → old.get i = true) :
    (noIndexes old new).foldl Bitfield.clear old = new := by
  apply Bitfield.ext_get
  · rw [length_foldl_clear, hlen]
  · intro i _
    simp only [get_foldl_clear, mem_noIndexes hlen]
    have := hone i
    cases hold : old.get i <;> cases hnew : new.get i <;> simp_all

/-- Without a piece which is newly wished, the wishes only shrink. -/
theorem le_of_doIndexes_nil (hlen : new.length = old.length) (hdo : doIndexes old new = []) :
    ∀ i, new.get i = true → old.get i = true := by
  intro i hi
  by_contra hold
  have hmem : i ∈ doIndexes old new := (mem_doIndexes hlen).2 ⟨Bool.eq_false_iff.2 hold, hi⟩
  rw [hdo] at hmem
  cases hmem

/-- The two fields differ in nothing when there is no index to send. -/
theorem eq_of_indexes_nil (hlen : new.length = old.length) (hdo : doIndexes old new = [])
    (hno : noIndexes old new = []) : old = new := by
  apply Bitfield.ext_get hlen.symm
  intro i _
  have hd : i ∉ doIndexes old new := hdo ▸ List.not_mem_nil
  have hn : i ∉ noIndexes old new := hno ▸ List.not_mem_nil
  rw [mem_doIndexes hlen] at hd
  rw [mem_noIndexes hlen] at hn
  cases hold : old.get i <;> cases hnew : new.get i <;> simp_all

/-- Where every index is a `uint32_t`, all of them are taken, unless one closes the
connection. -/
theorem parseIndexes_uint32 {notify : Swarm → ℕ → Swarm} {g : Bitfield → ℕ → Bitfield}
    {stop : Pieceavail → ℕ → Bool}
    (hnotify : ∀ {s : Swarm} {w i}, s.full_db.get id = some w → (notify s i).full_db.get id =
      if stop w.remote_pavail i then none else some { w with remote_pwish := g w.remote_pwish i })
    (h : s.full_db.get id = some w) {idxs : List ℕ} (huint : ∀ i ∈ idxs, i < 2 ^ 32) :
    ((∃ i ∈ idxs, stop w.remote_pavail i = true) ∧
      (parseIndexes id notify (dvarIndexes idxs) s).full_db.get id = none) ∨
    (parseIndexes id notify (dvarIndexes idxs) s).full_db.get id =
      some { w with remote_pwish := idxs.foldl g w.remote_pwish } := by
  rcases parseIndexes_cases hnotify h idxs with hstop | ⟨done, rest, hidxs, -, hrest, hsome⟩
  · exact .inl hstop
  · right
    rcases rest with - | ⟨i, rest⟩
    · rw [List.append_nil] at hidxs
      rw [hsome, hidxs]
    · have hi := huint i (by rw [hidxs]; exact List.mem_append_right _ List.mem_cons_self)
      have := hrest i rfl
      omega

/-- What a packet with one key does: the new field is recorded, unless the peer wishes a piece
which it has. -/
theorem get_parsePkt_oneWay (h : s.full_db.get id = some w)
    (hlen : new.length = w.remote_pwish.length) (hsize : w.remote_pwish.length < 2 ^ 63)
    (hone : OneWay w.remote_pwish new)
    (huint : ∀ i, w.remote_pwish.get i ≠ new.get i → i < 2 ^ 32) :
    ((∃ i, w.remote_pwish.get i = false ∧ new.get i = true ∧ w.remote_pavail.isAvail i = true) ∧
      (parsePkt env id (buildCmdDeltaBitfield w.remote_pwish new) s).full_db.get id = none) ∨
    (parsePkt env id (buildCmdDeltaBitfield w.remote_pwish new) s).full_db.get id =
      some { w with remote_pwish := new } := by
  obtain ⟨inmap, hpkt, hdf, hdi, hni⟩ := toDvar_buildCmdDeltaBitfield hlen hsize
  have hmem : ∀ {f : ℕ → Bool}, ∀ i ∈ (diffIndexes w.remote_pwish new).filter f, i < 2 ^ 32 :=
    fun i hi => huint i ((mem_diffIndexes hlen).1 (List.mem_filter.1 hi).1)
  rw [parsePkt, hpkt]
  simp only [hdf]
  by_cases hdo : doIndexes w.remote_pwish new = []
  · rw [if_pos hdo] at hdi
    simp only [hdi]
    have hone' := le_of_doIndexes_nil hlen hdo
    right
    by_cases hno : noIndexes w.remote_pwish new = []
    · rw [if_pos hno] at hni
      simp only [hni]
      rw [h, ← eq_of_indexes_nil hlen hdo hno]
    · rw [if_neg hno] at hni
      simp only [hni]
      rcases @parseIndexes_uint32 _ _ _ _ Bitfield.clear (fun _ _ => false)
        (fun h => get_notifyUtmsgNowishIndex h) h _ hmem with ⟨⟨i, -, hstop⟩, -⟩ | hsome
      · cases hstop
      · rw [← noIndexes, foldl_clear_noIndexes hlen hone'] at hsome
        exact hsome
  · rw [if_neg hdo] at hdi
    simp only [hdi]
    have hone' : ∀ i, w.remote_pwish.get i = true → new.get i = true := by
      rcases hone with hone | hone
      · exact hone
      · obtain ⟨i, hi⟩ := List.exists_mem_of_ne_nil _ hdo
        rw [mem_doIndexes hlen] at hi
        rw [hone i hi.2] at hi
        cases hi.1
    rcases parseIndexes_uint32
      (g := fun bf i => bf.set i)
      (fun h => get_notifyUtmsgDowishIndex h) h hmem with ⟨⟨i, hi, hstop⟩, hnone⟩ | hsome
    · rw [← doIndexes] at hi hnone
      rw [mem_doIndexes hlen] at hi
      exact .inl ⟨⟨i, hi.1, hi.2, hstop⟩, hnone⟩
    · rw [← doIndexes, foldl_set_doIndexes hlen hone'] at hsome
      exact .inr hsome

/-- A packet which was understood had one key at most. -/
theorem deltaFits_of_parsePkt (h : s.full_db.get id = some w)
    (hlen : new.length = w.remote_pwish.length) (hsize : w.remote_pwish.length < 2 ^ 63)
    (hnew : ((parsePkt env id (buildCmdDeltaBitfield w.remote_pwish new) s).full_db.get id).map
      SwarmFull.remote_pwish = some new) : DeltaFits w.remote_pwish new w.remote_pavail := by
  obtain ⟨inmap, hpkt, hdf, hdi, hni⟩ := toDvar_buildCmdDeltaBitfield hlen hsize
  rw [parsePkt, hpkt] at hnew
  simp only [hdf] at hnew
  by_cases hdo : doIndexes w.remote_pwish new = []
  · rw [if_pos hdo] at hdi
    simp only [hdi] at hnew
    have hone := le_of_doIndexes_nil hlen hdo
    have hunavail : ∀ i, w.remote_pwish.get i = false → new.get i = true →
        w.remote_pavail.isAvail i = false := by
      intro i hold hi
      rw [hone i hi] at hold
      cases hold
    refine ⟨.inr hone, fun i hi => ?_, hunavail⟩
    have hold : i ∈ noIndexes w.remote_pwish new := by
      have hdiff := (mem_diffIndexes hlen).2 hi
      rw [noIndexes, List.mem_filter]
      refine ⟨hdiff, ?_⟩
      cases hi' : new.get i with
      | true => exact absurd ((hone i hi').trans hi'.symm) hi
      | false => rfl
    rw [if_neg (List.ne_nil_of_mem hold)] at hni
    simp only [hni, parseNowishIndex] at hnew
    obtain ⟨⟨j, -, hstop⟩, -⟩ | ⟨done, rest, -, hdone, -, hsome⟩ :=
      @parseIndexes_cases _ _ _ _ Bitfield.clear (fun _ _ => false)
        (fun h => get_notifyUtmsgNowishIndex h) h (noIndexes w.remote_pwish new)
    · cases hstop
    · -- what is no more wished was done
      rw [hsome, Option.map_some, Option.some.injEq] at hnew
      rw [mem_noIndexes hlen] at hold
      have hget := hold.2
      rw [← hnew, get_foldl_clear, hold.1, Bool.true_and, decide_eq_false_iff_not, not_not] at hget
      exact (hdone i hget).1
  · rw [if_neg hdo] at hdi
    simp only [hdi, parseDowishIndex] at hnew
    obtain ⟨-, hnone⟩ | ⟨done, rest, -, hdone, -, hsome⟩ :=
      parseIndexes_cases
        (g := fun bf i => bf.set i)
        (fun h => get_notifyUtmsgDowishIndex h) h (doIndexes w.remote_pwish new)
    · rw [hnone] at hnew
      cases hnew
    · rw [hsome, Option.map_some, Option.some.injEq] at hnew
      -- what is newly wished was done
      have hmem : ∀ i, w.remote_pwish.get i = false → new.get i = true → i ∈ done := by
        intro i hold hi
        rw [← hnew, get_foldl_set, hold, Bool.false_or, decide_eq_true_eq] at hi
        exact hi.1
      have hone : ∀ i, w.remote_pwish.get i = true → new.get i = true := by
        intro i hi
        rw [← hnew, get_foldl_set, hi, Bool.true_or]
      refine ⟨.inl hone, fun i hi => ?_, fun i hold hi => (hdone i (hmem i hold hi)).2⟩
      cases hold : w.remote_pwish.get i with
      | true => exact absurd (hold.trans (hone i hold).symm) hi
      | false =>
        rw [hold] at hi
        exact (hdone i (hmem i hold (Bool.eq_true_of_not_eq_false (Ne.symm hi)))).1

/-- **One packet**: the record of the receiver becomes `new` exactly when the packet has one
key at most, its indexes fit, and nothing which is newly wished is recorded as available. -/
theorem remote_pwish_parsePkt_iff (h : s.full_db.get id = some w)
    (hlen : new.length = w.remote_pwish.length) (hsize : w.remote_pwish.length < 2 ^ 63) :
    ((parsePkt env id (buildCmdDeltaBitfield w.remote_pwish new) s).full_db.get id).map
        SwarmFull.remote_pwish = some new ↔ DeltaFits w.remote_pwish new w.remote_pavail := by
  constructor
  · exact deltaFits_of_parsePkt h hlen hsize
  · rintro ⟨hone, huint, hunavail⟩
    rcases get_parsePkt_oneWay h hlen hsize hone huint with
      ⟨⟨i, hold, hi, hav⟩, -⟩ | hsome
    · rw [hunavail i hold hi] at hav
      cases hav
    · rw [hsome]
      rfl

end Packet

end Piecewish

end Neoip
