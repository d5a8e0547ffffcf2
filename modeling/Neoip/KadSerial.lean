/-
Neoip/KadSerial.lean

`kad_recdups_t` on the wire, and what a sequence of updates leaves in it.

A list is written as the number of its records, their key, and the records.
The reader of a list of no records stops after their number, so that the key is
left to whatever is read next.  The records are put in one after the other, by
`update`; as they have distinct ids, they come out as they went in.

Of the copies of a record with the longest ttl, `update` keeps the first one.

Main result: `serial_update_iff`.
-/
import Neoip.KadRec
import Neoip.SerialCodec

namespace Neoip

namespace KadRecdups

/-! ### Writing and reading -/

/-- `serial << datum`. -/
def putDatum (payload : Datum) : Datum := writeUint32 payload.length ++ payload

/-- `serial << delay`. -/
def putDelay (delay : ℕ) : Datum := writeUint32 (delay / 2 ^ 32) ++ writeUint32 (delay % 2 ^ 32)

def putRecval (recval : Recval) : Datum :=
  GenId.toStdstring recval.recid ++ (putDatum recval.payload ++ putDelay recval.ttl)

/-- `operator <<`. -/
def serialize (dups : KadRecdups) : Datum :=
  writeUint32 dups.size ++ (GenId.toStdstring dups.keyid ++ dups.recval_db.flatMap putRecval)

/-- The id, the payload and the ttl of a record. -/
def recvalCodec : Codec UInt8 (KadId × ShortDatum × Fin (2 ^ 64)) :=
  .prod (.genId 20) (.prod .datum .uint64)

def unserialLoop (keyid : KadId) : ℕ → KadRecdups → Datum → Option (KadRecdups × Datum)
  | 0, dups, serial => some (dups, serial)
  | n + 1, dups, serial => (recvalCodec.get serial).bind fun ((recid, payload, ttl), serial) =>
    unserialLoop keyid n (dups.update ⟨recid, keyid, ttl.1, payload.1⟩) serial

/-- `operator >>`. -/
def unserialize (serial : Datum) : Option (KadRecdups × Datum) :=
  (Codec.uint32.get serial).bind fun (nb_rec, serial) =>
    if nb_rec.1 = 0 then some (empty, serial)
    else ((Codec.genId 20).get serial).bind fun (keyid, serial) =>
      unserialLoop keyid nb_rec.1 empty serial

/-! ### What is claimed of a list -/

/-- What has been written is read back, and nothing of what follows it is taken. -/
def RoundTrips (dups : KadRecdups) : Prop :=
  ∀ rest, ∃ dups', unserialize (dups.serialize ++ rest) = some (dups', rest)
    ∧ dups'.recs = dups.recs

/-- The length is the one which is counted with: the records which are said to fit in `max_len`
bytes are as many as do fit. -/
def Accounted (dups : KadRecdups) : Prop :=
  dups.serialize.length = SERIAL_HD_MAIN
      + (dups.recval_db.map fun recval => SERIAL_HD_PER_REC + recval.payload.length).sum
    ∧ ∀ max_len n, n ≤ dups.size → (n ≤ dups.nbSerializedRecInSize max_len ↔ max_len = 0 ∨ n = 0
        ∨ (dups.truncateAtTail (dups.size - n)).serialize.length ≤ max_len)

/-- The updates leave one record for each id, of those with the longest ttl the one which came
last. -/
def KeepsLast (recs : List KadRec) : Prop :=
  let recval_db := (empty.updateAll recs).recval_db
  (recval_db.map Recval.recid).Nodup
    ∧ (∀ recval ∈ recs.map Recval.ofRec, recval.recid ∈ recval_db.map Recval.recid)
    ∧ ∀ recval ∈ recval_db, LastBest Recval.recid Recval.ttl (recs.map Recval.ofRec) recval

/-- There are records, and the numbers which are written fit in their types. -/
def Fits (dups : KadRecdups) : Prop :=
  0 < dups.size ∧ dups.size < 2 ^ 32
    ∧ ∀ recval ∈ dups.recval_db, recval.payload.length < 2 ^ 32 ∧ recval.ttl < 2 ^ 64

/-- Of the copies of a record with the longest ttl, the first one is the last one too. -/
def Untied (recs : List KadRec) : Prop :=
  ∀ a b, FirstBest Recval.recid Recval.ttl (recs.map .ofRec) a →
    LastBest Recval.recid Recval.ttl (recs.map .ofRec) b → a.recid = b.recid → a = b

/-! ### The round trip -/

variable {dups : KadRecdups} {keyid : KadId} {rest : Datum}

theorem datum_put (payload : Datum) (h : payload.length < 2 ^ 32) :
    Codec.datum.put ⟨payload, h⟩ = putDatum payload := by
  show writeUint32 payload.length ++ payload.flatMap (fun a => [a]) = _
  rw [List.flatMap_singleton']
  rfl

theorem recvalCodec_get {recval : Recval} (hpayload : recval.payload.length < 2 ^ 32)
    (httl : recval.ttl < 2 ^ 64) (rest : Datum) :
    recvalCodec.get (putRecval recval ++ rest)
      = some ((recval.recid, ⟨recval.payload, hpayload⟩, ⟨recval.ttl, httl⟩), rest) := by
  have hput : putRecval recval
      = recvalCodec.put (recval.recid, ⟨recval.payload, hpayload⟩, ⟨recval.ttl, httl⟩) := by
    show _ = GenId.toStdstring recval.recid ++ (Codec.datum.put ⟨recval.payload, hpayload⟩ ++ _)
    rw [datum_put]
    rfl
  rw [hput, recvalCodec.get_put]

/-- The records come out as they went in. -/
theorem unserialLoop_put (keyid : KadId) (rest : Datum) : ∀ (l : List Recval) (dups : KadRecdups),
    (∀ recval ∈ l, recval.payload.length < 2 ^ 32 ∧ recval.ttl < 2 ^ 64) →
    ((dups.recval_db ++ l).map Recval.recid).Nodup → dups.keyid = 0 ∨ dups.keyid = keyid →
    ∃ dups', unserialLoop keyid l.length dups (l.flatMap putRecval ++ rest) = some (dups', rest)
      ∧ dups'.recval_db = dups.recval_db ++ l ∧ (dups'.keyid = keyid ∨ l = []) := by
  intro l
  induction l with
  | nil =>
    intro dups _ _ _
    exact ⟨dups, rfl, (List.append_nil _).symm, .inr rfl⟩
  | cons recval l ih =>
    intro dups hfits hnodup hkeyid
    obtain ⟨hpayload, httl⟩ := hfits _ List.mem_cons_self
    set rec : KadRec := ⟨recval.recid, keyid, recval.ttl, recval.payload⟩ with hrec
    have hnew : ∀ other ∈ dups.recval_db, other.recid ≠ rec.recid := by
      intro other hother
      rw [List.map_append, List.nodup_append] at hnodup
      exact hnodup.2.2 _ (List.mem_map_of_mem hother) _ (List.mem_map_of_mem List.mem_cons_self)
    have hdb := recval_db_update hnew
    have hkey : (dups.update rec).keyid = keyid := by
      rw [update, getByRecid_eq_none.2 hnew]
      show (if dups.keyid = 0 then keyid else dups.keyid) = keyid
      split_ifs with hzero
      · rfl
      · exact hkeyid.resolve_left hzero
    have hassoc : dups.recval_db ++ recval :: l = (dups.update rec).recval_db ++ l := by
      rw [hdb, List.append_assoc]
      rfl
    obtain ⟨dups', hloop, hdb', hkey'⟩ := ih (dups.update rec)
      (fun other hother => hfits other (List.mem_cons_of_mem _ hother)) (hassoc ▸ hnodup)
      (.inr hkey)
    refine ⟨dups', ?_, hdb'.trans hassoc.symm, .inl ?_⟩
    · rw [List.flatMap_cons, List.append_assoc, List.length_cons, unserialLoop,
        recvalCodec_get hpayload httl]
      exact hloop
    · rcases hkey' with hkey' | rfl
      · exact hkey'
      · obtain rfl : dups.update rec = dups' := congrArg Prod.fst (Option.some.inj hloop)
        exact hkey

theorem roundTrips_of_fits (h : Fits dups) : RoundTrips dups := by
  intro rest
  obtain ⟨hpos, hsize, hrecs⟩ := h
  obtain ⟨dups', hloop, hdb, hkey⟩ := unserialLoop_put dups.keyid rest dups.recval_db empty hrecs
    dups.nodup (.inl rfl)
  refine ⟨dups', ?_, ?_⟩
  · have hassoc : dups.serialize ++ rest = Codec.uint32.put ⟨dups.size, hsize⟩
        ++ ((Codec.genId 20).put dups.keyid ++ (dups.recval_db.flatMap putRecval ++ rest)) := by
      rw [serialize, List.append_assoc, List.append_assoc]
      rfl
    rw [unserialize, hassoc, Codec.get_put]
    show (if dups.size = 0 then _ else _) = _
    rw [if_neg hpos.ne', Codec.get_put]
    exact hloop
  · have hdb : dups'.recval_db = dups.recval_db := hdb
    rcases hkey with hkey | hnil
    · rw [recs, recs, hdb, hkey]
    · rw [recs, recs, hdb, hnil]
      rfl

/-- What is put in is the record, or has been there. -/
theorem mem_update {rec : KadRec} {recval : Recval} (h : recval ∈ (dups.update rec).recval_db) :
    recval ∈ dups.recval_db ∨ recval = .ofRec rec := by
  rw [recval_db_update_eq, keepBest] at h
  have hreplace (h : recval ∈ replaceKey Recval.recid (.ofRec rec) dups.recval_db) :
      recval ∈ dups.recval_db ∨ recval = .ofRec rec := by
    rcases (mem_replaceKey dups.nodup).1 h with ⟨hmem, -⟩ | heq
    · exact .inl hmem
    · exact .inr heq
  split at h
  · split_ifs at h
    · exact hreplace h
    · exact .inl h
  · exact hreplace h

theorem size_update_le (dups : KadRecdups) (rec : KadRec) : (dups.update rec).size ≤ dups.size + 1 := by
  have hreplace : (replaceKey Recval.recid (.ofRec rec) dups.recval_db).length
      ≤ dups.recval_db.length + 1 := by
    rw [replaceKey, List.length_append]
    exact Nat.add_le_add_right (List.eraseP_sublist.length_le) 1
  rw [size, recval_db_update_eq, keepBest]
  split
  · split_ifs
    · exact hreplace
    · exact Nat.le_succ _
  · exact hreplace

/-- What is read fits in what it is written with. -/
theorem unserialLoop_bounds {serial : Datum} {dups' : KadRecdups} : ∀ {n : ℕ} {dups : KadRecdups},
    unserialLoop keyid n dups serial = some (dups', rest) →
    (∀ recval ∈ dups.recval_db, recval.payload.length < 2 ^ 32 ∧ recval.ttl < 2 ^ 64) →
    (∀ recval ∈ dups'.recval_db, recval.payload.length < 2 ^ 32 ∧ recval.ttl < 2 ^ 64)
      ∧ dups'.size ≤ dups.size + n := by
  intro n
  induction n generalizing serial with
  | zero =>
    intro dups h hfits
    obtain rfl : dups = dups' := congrArg Prod.fst (Option.some.inj h)
    exact ⟨hfits, le_refl _⟩
  | succ n ih =>
    intro dups h hfits
    obtain ⟨⟨⟨recid, payload, ttl⟩, serial'⟩, -, hloop⟩ := Option.bind_eq_some_iff.1 h
    obtain ⟨hfits', hsize⟩ := ih hloop (by
      intro recval hrecval
      rcases mem_update hrecval with hmem | rfl
      · exact hfits recval hmem
      · exact ⟨payload.2, ttl.2⟩)
    refine ⟨hfits', hsize.trans ?_⟩
    have hle := size_update_le dups ⟨recid, keyid, ttl.1, payload.1⟩
    omega

/-- The number of the records is written in a `uint32_t`, whatever it is. -/
theorem uint32_get_write (n : ℕ) (rest : Datum) : Codec.uint32.get (writeUint32 n ++ rest)
    = some (⟨n % 2 ^ 32, Nat.mod_lt _ (Nat.two_pow_pos _)⟩, rest) := by
  have hmod : writeUint32 n = writeUint32 (n % 2 ^ 32) := by
    simp only [writeUint32, List.cons.injEq, and_true, ← UInt8.toNat_inj, UInt8.toNat_ofNat']
    omega
  rw [hmod]
  exact Codec.uint32.get_put ⟨n % 2 ^ 32, Nat.mod_lt _ (Nat.two_pow_pos _)⟩ rest

theorem fits_of_roundTrips (h : RoundTrips dups) : Fits dups := by
  obtain ⟨dups', hread, hrecs⟩ := h []
  have hdb : dups'.recval_db = dups.recval_db := by
    rw [← map_ofRec_recs, hrecs, map_ofRec_recs]
  rw [List.append_nil, unserialize, serialize, uint32_get_write, Option.bind_some] at hread
  dsimp only at hread
  split_ifs at hread with hzero
  · -- a list of no records leaves its key unread
    have hrest := congrArg (fun r => r.2.length) (Option.some.inj hread)
    simp at hrest
  · obtain ⟨⟨keyid, serial'⟩, -, hloop⟩ := Option.bind_eq_some_iff.1 hread
    obtain ⟨hfits, hsize⟩ := unserialLoop_bounds hloop nofun
    have hsize : dups.size ≤ dups.size % 2 ^ 32 := by
      have hle : dups'.size ≤ 0 + dups.size % 2 ^ 32 := hsize
      rw [size, hdb, Nat.zero_add] at hle
      exact hle
    refine ⟨Nat.pos_of_ne_zero ?_, ?_, hdb ▸ hfits⟩
    · intro hsize
      rw [hsize] at hzero
      exact hzero rfl
    · exact hsize.trans_lt (Nat.mod_lt _ (Nat.two_pow_pos _))

theorem roundTrips_iff_fits : RoundTrips dups ↔ Fits dups :=
  ⟨fits_of_roundTrips, roundTrips_of_fits⟩

/-! ### The length -/

theorem length_putRecval (recval : Recval) :
    (putRecval recval).length = SERIAL_HD_PER_REC + recval.payload.length := by
  simp only [putRecval, putDatum, putDelay, SERIAL_HD_PER_REC, List.length_append,
    GenId.length_toStdstring, length_writeUint32]
  omega

theorem length_serialize (dups : KadRecdups) : dups.serialize.length = SERIAL_HD_MAIN
    + (dups.recval_db.map fun recval => SERIAL_HD_PER_REC + recval.payload.length).sum := by
  have hrecs : (dups.recval_db.map fun recval => (putRecval recval).length)
      = dups.recval_db.map fun recval => SERIAL_HD_PER_REC + recval.payload.length :=
    List.map_congr_left fun recval _ => length_putRecval recval
  rw [serialize, List.length_append, List.length_append, List.length_flatMap, hrecs,
    length_writeUint32, GenId.length_toStdstring, SERIAL_HD_MAIN, Nat.add_assoc]

/-- The loop counts the records as long as they fit. -/
theorem le_nbRecInSize_iff {max_len : ℕ} {l : List Recval} : ∀ {n cur_len : ℕ}, n ≤ l.length →
    (n ≤ nbRecInSize max_len cur_len l ↔ max_len = 0 ∨ n = 0 ∨ cur_len
      + ((l.take n).map fun recval => SERIAL_HD_PER_REC + recval.payload.length).sum ≤ max_len) := by
  induction l with
  | nil =>
    intro n cur_len hn
    obtain rfl : n = 0 := Nat.le_zero.1 hn
    simp
  | cons recval l ih =>
    intro n cur_len hn
    cases n with
    | zero => simp
    | succ n =>
      rw [nbRecInSize, List.take_succ_cons, List.map_cons, List.sum_cons]
      split_ifs with hfull
      · constructor
        · intro h
          omega
        · rintro (h | h | h)
          · exact absurd h hfull.1
          · exact h.elim
          · omega
      · rw [Nat.add_le_add_iff_right, ih (Nat.le_of_succ_le_succ hn)]
        constructor
        · rintro (h | rfl | h)
          · exact .inl h
          · by_cases hmax : max_len = 0
            · exact .inl hmax
            · refine .inr (.inr ?_)
              simp only [List.take_zero, List.map_nil, List.sum_nil]
              omega
          · exact .inr (.inr (by omega))
        · rintro (h | h | h)
          · exact .inl h
          · exact h.elim
          · exact .inr (.inr (by omega))

theorem accounted (dups : KadRecdups) : Accounted dups := by
  refine ⟨length_serialize dups, fun max_len n hn => ?_⟩
  have htake : (dups.truncateAtTail (dups.size - n)).recval_db = dups.recval_db.take n := by
    show dups.recval_db.take (dups.size - (dups.size - n)) = _
    rw [Nat.sub_sub_self hn]
  rw [nbSerializedRecInSize, le_nbRecInSize_iff hn, length_serialize, htake]

/-! ### The updates -/

theorem firstBest_updateAll {l : List Recval}
    (h : BestOf Recval.recid Recval.ttl l dups.recval_db)
    (hfirst : ∀ a ∈ dups.recval_db, FirstBest Recval.recid Recval.ttl l a) (recs : List KadRec) :
    ∀ a ∈ (dups.updateAll recs).recval_db,
      FirstBest Recval.recid Recval.ttl (l ++ recs.map .ofRec) a := by
  induction recs generalizing dups l with
  | nil => simpa [updateAll] using hfirst
  | cons rec recs ih =>
    have hbest :
        BestOf Recval.recid Recval.ttl (l ++ [.ofRec rec]) (dups.update rec).recval_db := by
      rw [recval_db_update_eq]
      exact h.keepBest _
    have hkept : ∀ a ∈ (dups.update rec).recval_db,
        FirstBest Recval.recid Recval.ttl (l ++ [.ofRec rec]) a := by
      rw [recval_db_update_eq]
      exact h.firstBest_keepBest hfirst _
    simpa [updateAll] using ih hbest hkept

theorem keepsLast_iff (recs : List KadRec) : KeepsLast recs ↔ Untied recs := by
  have hbest : BestOf Recval.recid Recval.ttl ([] ++ recs.map .ofRec)
      (empty.updateAll recs).recval_db := bestOf_updateAll .nil recs
  have hfirst : ∀ a ∈ (empty.updateAll recs).recval_db,
      FirstBest Recval.recid Recval.ttl ([] ++ recs.map .ofRec) a :=
    firstBest_updateAll .nil (fun _ ha => absurd ha List.not_mem_nil) recs
  rw [List.nil_append] at hbest hfirst
  constructor
  · rintro ⟨-, -, hlast⟩ a b ha hb hid
    obtain ⟨c, hc, hca⟩ := List.mem_map.1 (hbest.all a ha.mem)
    have hac : c = a := (hfirst c hc).eq ha hca
    exact (hac ▸ hlast c hc).eq hb hid
  · intro huntied
    refine ⟨hbest.nodup, hbest.all, fun a ha => ?_⟩
    have hlast : ∃ b, LastBest Recval.recid Recval.ttl (recs.map .ofRec) b ∧ b.recid = a.recid :=
      exists_lastBest (hbest.mem a ha)
    obtain ⟨b, hb, hid⟩ := hlast
    rw [huntied a b (hfirst a ha) hb hid.symm]
    exact hb

/-- **The list of the records of a key**: it is read back as it was written, with what follows it
left, it is as long as is counted with, and of each record the last copy with the longest ttl is
kept, exactly when it has records whose numbers fit, and no copies tie. -/
theorem serial_update_iff (dups : KadRecdups) (recs : List KadRec) :
    RoundTrips dups ∧ Accounted dups ∧ KeepsLast recs ↔ Fits dups ∧ Untied recs := by
  rw [roundTrips_iff_fits, keepsLast_iff, and_iff_right (accounted dups)]

/-- The key of an empty list is left, and of two copies with one ttl the first one is kept. -/
theorem not_serial_update : ¬RoundTrips empty
    ∧ ¬KeepsLast [⟨1, 5, 60, [0]⟩, ⟨1, 5, 60, [1]⟩] := by
  constructor
  · intro h
    exact absurd (fits_of_roundTrips h).1 (lt_irrefl 0)
  · rw [keepsLast_iff]
    intro h
    have htied := h ⟨1, [0], 60⟩ ⟨1, [1], 60⟩ ⟨[], _, rfl, nofun, by simp [Recval.ofRec]⟩
      ⟨[_], [], rfl, by simp [Recval.ofRec], nofun⟩ rfl
    nomatch htied

end KadRecdups

end Neoip
