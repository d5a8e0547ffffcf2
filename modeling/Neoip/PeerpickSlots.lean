/-
Neoip/PeerpickSlots.lean

How many connections are authorised.

Main result: for each policy and each profile, in a run no kind ever has more
connections than its maximum, each authorisation expires, the assertions of the
updates hold, and an update leaves a slot only when no candidate is left, if and
only if each update of `plain` on a seed finds as many connections in `HOPE` as
in `GIVE`, or few enough of both (`slots_iff`).  It counts those in `HOPE` where
it gives `GIVE`.
-/
import Neoip.Peerpick

namespace Neoip.Peerpick

variable {vapi : PeerpickVapi} {now : Now} {db db' db'' : FullDb} {p : Pick} {id : ℕ} {c : Cnx}
  {s u : Swarm} {e : Event} {k : ReqauthType}

/-! ### What is claimed -/

/-- No kind has more connections than its maximum, and each authorisation has its delay. -/
structure SlotsOk (vapi : PeerpickVapi) (s : Swarm) : Prop where
  within : ∀ k, k.authorised = true → s.full_db.nb k ≤ ((vapi.slot k).map Slot.max).getD 0
  expiring : ∀ id c, s.full_db.get id = some c → c.reqauth_type.authorised = true →
    ∃ slot, vapi.slot c.reqauth_type = some slot ∧ c.reqauth_timeout = some slot.timeout

/-- The swarm whose peer selection the handler of an event updates. -/
def Swarm.updated (s : Swarm) : Event → Option Swarm
  | .close id _ =>
    match s.full_db.get id with
    | none => none
    | some c =>
      if c.notified_as_open && c.reqauth_type ≠ .DENY then
        some (s.modify id fun c => c.setReqauthType .NONE Delay.NEVER)
      else none
  | .dowant_req id _ =>
    if s.isOpen id then some (s.modify id fun c => { c with other_dowant_req := true }) else none
  | .reqauth_timeout id _ =>
    match (s.full_db.get id).bind Cnx.reqauth_timeout with
    | none => none
    | some period =>
      if period = Delay.NEVER then none
      else some (s.modify id fun c => c.setReqauthType .DENY Delay.NEVER)
  | _ => none

/-- The update of an event asserts what holds, and leaves no slot which it could have given. -/
structure UpdateOk (vapi : PeerpickVapi) (s : Swarm) (e : Event) : Prop where
  asserted : ∀ u ∈ s.updated e, ∀ p ∈ vapi.picks u.is_seed, p.asserted u.full_db
  filled : ∀ u ∈ s.updated e, ∀ p ∈ vapi.picks u.is_seed, p.picker.unrestricted = true →
    (s.step vapi e).full_db.nb p.reqauth_type < p.slot.max → (s.step vapi e).full_db.nbCand = 0

/-- What an update gives does not depend on whether those in `HOPE` or those in `GIVE` are
counted. -/
def CountsAgree (profile : PlainProfile) (db : FullDb) : Prop :=
  db.nb .HOPE = db.nb .GIVE ∨
    max (db.nb .HOPE) (db.nb .GIVE) + db.nbCand ≤ profile.reqauth_give.max

/-- An update of `plain` on a seed finds counts which agree. -/
def SeedFits (vapi : PeerpickVapi) (s : Swarm) (e : Event) : Prop :=
  ∀ u ∈ s.updated e, u.is_seed = true → ∀ profile, vapi = .plain profile →
    CountsAgree profile u.full_db

/-! ### Picking one connection -/

theorem mem_candidates {q : ℕ → Bool} : id ∈ Now.candidates db q ↔
    ∃ c, db.get id = some c ∧ c.isCand = true ∧ q id = true := by
  rw [Now.candidates, List.mem_map]
  constructor
  · rintro ⟨x, hx, rfl⟩
    obtain ⟨hmem, hp⟩ := List.mem_filter.1 hx
    obtain ⟨hcand, hq⟩ := Bool.and_eq_true_iff.1 hp
    exact ⟨x.2, KeyedDb.mem_item_iff.1 hmem, hcand, hq⟩
  · rintro ⟨c, hget, hcand, hq⟩
    refine ⟨(id, c), List.mem_filter.2 ⟨KeyedDb.mem_item_iff.2 hget, ?_⟩, rfl⟩
    rw [hcand, hq]
    rfl

theorem length_candidates : (Now.candidates db fun _ => true).length = db.nbCand := by
  rw [Now.candidates, List.length_map, FullDb.nbCand, KeyedDb.count, List.countP_eq_length_filter]
  simp only [Bool.and_true]

theorem pickRandom_mem {l : List ℕ} (h : now.pickRandom l = some id) : id ∈ l :=
  List.mem_of_getElem? h

theorem pickRandom_eq_none {l : List ℕ} (h : now.pickRandom l = none) : l = [] := by
  by_contra hne
  have hlt := Nat.mod_lt (now.rand l) (List.length_pos_iff.2 hne)
  rw [Now.pickRandom, List.getElem?_eq_none_iff] at h
  omega

/-- A loop over the connections which keeps the best candidate yields a candidate. -/
theorem foldl_mem {f : ℚ × Option ℕ → ℕ × Cnx → ℚ × Option ℕ}
    (hf : ∀ acc x, (f acc x).2 = acc.2 ∨ x.2.isCand = true ∧ (f acc x).2 = some x.1)
    {l : List (ℕ × Cnx)} {acc : ℚ × Option ℕ} (h : (l.foldl f acc).2 = some id) :
    acc.2 = some id ∨ ∃ c, (id, c) ∈ l ∧ c.isCand = true := by
  induction l generalizing acc with
  | nil => exact .inl h
  | cons x l ih =>
    rcases ih h with hacc | ⟨c, hmem, hcand⟩
    · rcases hf acc x with heq | ⟨hcand, heq⟩
      · exact .inl (heq ▸ hacc)
      · rw [heq] at hacc
        obtain rfl := Option.some.inj hacc
        exact .inr ⟨x.2, List.mem_cons_self .., hcand⟩
    · exact .inr ⟨c, List.mem_cons_of_mem _ hmem, hcand⟩

theorem pick_mem {picker : Picker} (h : picker.pick now db = some id) :
    ∃ c, db.get id = some c ∧ c.isCand = true := by
  have hfold : ∀ f : ℚ × Option ℕ → ℕ × Cnx → ℚ × Option ℕ,
      (∀ acc x, (f acc x).2 = acc.2 ∨ x.2.isCand = true ∧ (f acc x).2 = some x.1) →
      ∀ r, (db.item.foldl f (r, none)).2 = some id → ∃ c, db.get id = some c ∧ c.isCand = true := by
    intro f hf r hr
    rcases foldl_mem hf hr with hacc | ⟨c, hmem, hcand⟩
    · cases hacc
    · exact ⟨c, KeyedDb.mem_item_iff.1 hmem, hcand⟩
  cases picker with
  | pick_random_any =>
    obtain ⟨c, hget, hcand, -⟩ := mem_candidates.1 (pickRandom_mem h)
    exact ⟨c, hget, hcand⟩
  | pick_random_fstart =>
    obtain ⟨c, hget, hcand, -⟩ := mem_candidates.1 (pickRandom_mem h)
    exact ⟨c, hget, hcand⟩
  | pick_fastest_recv =>
    refine hfold _ (fun acc x => ?_) _ h
    split_ifs with hx
    · exact .inr ⟨(Bool.and_eq_true_iff.1 hx).1, rfl⟩
    · exact .inl rfl
  | pick_highest_giver =>
    refine hfold _ (fun acc x => ?_) _ h
    split_ifs with hcand
    · split
      · exact .inl rfl
      · split_ifs
        · exact .inl rfl
        · exact .inr ⟨hcand, rfl⟩
    · exact .inl rfl

/-- A rate is never as low as what the loop of `pick_fastest_recv` starts with. -/
theorem pickFastestRecv_eq_none (h : now.pickFastestRecv db = none) : db.nbCand = 0 := by
  have hfold : ∀ (l : List (ℕ × Cnx)) (acc : ℚ × Option ℕ), (acc.2 = none → acc.1 = -1) →
      (l.foldl (fun (acc : ℚ × Option ℕ) x =>
        if x.2.isCand && acc.1 < now.recv_rate_avg x.1 then (↑(now.recv_rate_avg x.1), some x.1)
        else acc) acc).2 = none → acc.2 = none ∧ ∀ x ∈ l, ¬x.2.isCand = true := by
    intro l
    induction l with
    | nil => exact fun _ _ h => ⟨h, fun _ hx => nomatch hx⟩
    | cons x l ih =>
      intro acc hacc hnone
      rw [List.foldl_cons] at hnone
      split_ifs at hnone with hx
      · obtain ⟨hsome, -⟩ := ih _ (fun heq => by cases heq) hnone
        cases hsome
      · obtain ⟨hacc', hrest⟩ := ih _ hacc hnone
        refine ⟨hacc', fun y hy => ?_⟩
        rcases List.mem_cons.1 hy with rfl | hy
        · intro hcand
          apply hx
          have hrate : (-1 : ℚ) < now.recv_rate_avg y.1 :=
            lt_of_lt_of_le (by norm_num) (now.recv_rate_avg y.1).2
          rw [hcand, hacc hacc', Bool.true_and, decide_eq_true_eq]
          exact hrate
        · exact hrest y hy
  have hnone := (hfold db.item (-1, none) (fun _ => rfl) h).2
  exact List.countP_eq_zero.2 hnone

/-- An unrestricted function finds a candidate if there is one. -/
theorem pick_eq_none {picker : Picker} (hpicker : picker.unrestricted = true)
    (h : picker.pick now db = none) : db.nbCand = 0 := by
  cases picker with
  | pick_random_any => rw [← length_candidates, pickRandom_eq_none h, List.length_nil]
  | pick_random_fstart => cases hpicker
  | pick_fastest_recv => exact pickFastestRecv_eq_none h
  | pick_highest_giver => cases hpicker

/-! ### Authorising candidates -/

theorem nb_modify {f : Cnx → Cnx} (h : db.get id = some c) :
    FullDb.nb (db.modify id f) k + (if c.reqauth_type = k then 1 else 0) =
      db.nb k + if (f c).reqauth_type = k then 1 else 0 := by
  have hcount : ((db.modify id f).count (fun c => c.reqauth_type = k) : Int) = _ :=
    KeyedDb.count_modify h
  unfold FullDb.nb
  simp only [decide_eq_true_eq] at hcount
  split_ifs at hcount ⊢ <;> omega

theorem nbCand_modify {f : Cnx → Cnx} (h : db.get id = some c) :
    FullDb.nbCand (db.modify id f) + (if c.isCand then 1 else 0) =
      db.nbCand + if (f c).isCand then 1 else 0 := by
  have hcount : ((db.modify id f).count Cnx.isCand : Int) = _ := KeyedDb.count_modify h
  unfold FullDb.nbCand
  split_ifs at hcount ⊢ <;> omega

/-- Who is no candidate stays as it is, and who is changed has the delay of its authorisation. -/
structure Granted (vapi : PeerpickVapi) (db db' : FullDb) : Prop where
  kept : ∀ id c, db.get id = some c → c.isCand = false → db'.get id = some c
  given : ∀ id c, db'.get id = some c → db.get id = some c ∨
    ∃ slot, vapi.slot c.reqauth_type = some slot ∧ c.reqauth_timeout = some slot.timeout

theorem Granted.refl (vapi : PeerpickVapi) (db : FullDb) : Granted vapi db db where
  kept _ _ h _ := h
  given _ _ h := .inl h

theorem Granted.trans (h : Granted vapi db db') (h' : Granted vapi db' db'') :
    Granted vapi db db'' where
  kept id c hget hcand := h'.kept id c (h.kept id c hget hcand) hcand
  given id c hget := (h'.given id c hget).elim (h.given id c) .inr

/-- `m` candidates are authorised, with `k`. -/
structure Grants (vapi : PeerpickVapi) (k : ReqauthType) (m : ℕ) (db db' : FullDb) : Prop where
  nb_self : db'.nb k = db.nb k + m
  nb_other : ∀ j, j ≠ k → j ≠ .DENY → db'.nb j = db.nb j
  nbCand : db'.nbCand + m = db.nbCand
  granted : Granted vapi db db'

theorem Grants.refl (vapi : PeerpickVapi) (k : ReqauthType) (db : FullDb) :
    Grants vapi k 0 db db where
  nb_self := rfl
  nb_other _ _ _ := rfl
  nbCand := rfl
  granted := Granted.refl vapi db

theorem Grants.trans {m n : ℕ} (h : Grants vapi k m db db') (h' : Grants vapi k n db' db'') :
    Grants vapi k (m + n) db db'' where
  nb_self := by rw [h'.nb_self, h.nb_self, Nat.add_assoc]
  nb_other j hj hdeny := (h'.nb_other j hj hdeny).trans (h.nb_other j hj hdeny)
  nbCand := by
    have hcand := h.nbCand
    have hcand' := h'.nbCand
    omega
  granted := h.granted.trans h'.granted

theorem authorised_of_slot {slot : Slot} (h : vapi.slot k = some slot) : k.authorised = true := by
  cases k with
  | NONE => cases vapi <;> cases h
  | DENY => cases vapi <;> cases h
  | COOP => rfl
  | HOPE => rfl
  | GIVE => rfl
  | FSTART => rfl
  | IDLE => rfl

theorem grants_modify {f : Cnx → Cnx} {slot : Slot} (hslot : vapi.slot k = some slot)
    (hget : db.get id = some c) (hcand : c.isCand = true) (htype : (f c).reqauth_type = k)
    (htimeout : (f c).reqauth_timeout = some slot.timeout) :
    Grants vapi k 1 db (db.modify id f) := by
  have hdeny : c.reqauth_type = .DENY := of_decide_eq_true (Bool.and_eq_true_iff.1 hcand).2
  have hauth := authorised_of_slot hslot
  have hne : k ≠ .DENY := by
    rintro rfl
    cases hauth
  refine ⟨?_, fun j hj hjdeny => ?_, ?_, ⟨fun id' c' hget' hcand' => ?_, fun id' c' hget' => ?_⟩⟩
  · have hnb := nb_modify (k := k) (f := f) hget
    rwa [hdeny, if_neg hne.symm, if_pos htype] at hnb
  · have hnb := nb_modify (k := j) (f := f) hget
    rwa [hdeny, if_neg hjdeny.symm, htype, if_neg hj.symm] at hnb
  · have hnb := nbCand_modify (f := f) hget
    have hnot : (f c).isCand = false := by
      rw [Cnx.isCand, htype, decide_eq_false hne, Bool.and_false]
    rwa [hcand, if_pos rfl, hnot, if_neg Bool.false_ne_true] at hnb
  · rw [KeyedDb.get_modify, if_neg, hget']
    rintro rfl
    rw [hget] at hget'
    obtain rfl := Option.some.inj hget'
    rw [hcand] at hcand'
    cases hcand'
  · rw [KeyedDb.get_modify] at hget'
    split_ifs at hget' with heq
    · rw [hget, Option.map_some] at hget'
      obtain rfl := Option.some.inj hget'
      exact .inr ⟨slot, htype ▸ hslot, htimeout⟩
    · exact .inl hget'

theorem reqauth_type_sync (c : Cnx) : c.syncDoauthReqCmd.reqauth_type = c.reqauth_type := by
  unfold Cnx.syncDoauthReqCmd
  split
  · rfl
  · rfl

theorem reqauth_timeout_sync (c : Cnx) :
    c.syncDoauthReqCmd.reqauth_timeout = c.reqauth_timeout := by
  unfold Cnx.syncDoauthReqCmd
  split
  · rfl
  · rfl

/-- `pick_many_cnx` authorises as many as asked for, unless none can be picked any more. -/
theorem pickManyCnx_spec (hslot : vapi.slot p.reqauth_type = some p.slot) (now : Now) (n : ℕ)
    (db : FullDb) : ∃ m ≤ n, Grants vapi p.reqauth_type m db (p.pickManyCnx now n db) ∧
      (m = n ∨ p.picker.pick now (p.pickManyCnx now n db) = none) := by
  induction n generalizing db with
  | zero => exact ⟨0, le_refl 0, Grants.refl vapi _ db, .inl rfl⟩
  | succ n ih =>
    rw [Pick.pickManyCnx]
    cases hpick : p.picker.pick now db with
    | none => exact ⟨0, Nat.zero_le _, Grants.refl vapi _ db, .inr hpick⟩
    | some id =>
      obtain ⟨c, hget, hcand⟩ := pick_mem hpick
      have hone : Grants vapi p.reqauth_type 1 db (p.pickOneCnx id db) := by
        refine grants_modify hslot hget hcand (reqauth_type_sync _) ?_
        refine (reqauth_timeout_sync _).trans ?_
        rw [Cnx.setReqauthType, if_neg p.slot.timeout_ne]
      obtain ⟨m, hm, hgrants, hend⟩ := ih (p.pickOneCnx id db)
      refine ⟨1 + m, by omega, hone.trans hgrants, hend.imp_left fun heq => ?_⟩
      omega

/-! ### Updates -/

/-- The calls are for distinct kinds of the profile, and each counts the kind that it gives. -/
structure Faithful (vapi : PeerpickVapi) (picks : List Pick) : Prop where
  slot : ∀ p ∈ picks, vapi.slot p.reqauth_type = some p.slot
  counted : ∀ p ∈ picks, p.counted = p.reqauth_type
  nodup : (picks.map Pick.reqauth_type).Nodup

theorem nb2launch_eq (h : p.asserted db) : p.nb2launch db = p.slot.max - db.nb p.counted := by
  have hlt := p.slot.max_lt
  have hle : db.nb p.counted ≤ p.slot.max := h
  have heq : p.slot.max + 2 ^ 64 - db.nb p.counted = p.slot.max - db.nb p.counted + 2 ^ 64 := by
    omega
  rw [Pick.nb2launch, heq, Nat.add_mod_right, Nat.mod_eq_of_lt (by omega)]

/-- Each call in turn, where `db₀` is what was counted. -/
theorem foldl_pickManyCnx_spec {db₀ : FullDb} (now : Now) {picks : List Pick}
    (hpicks : Faithful vapi picks) (hasserted : ∀ p ∈ picks, p.asserted db₀)
    (hsame : ∀ p ∈ picks, db.nb p.reqauth_type = db₀.nb p.reqauth_type)
    (hdb' : picks.foldl (fun db p => p.pickManyCnx now (p.nb2launch db₀) db) db = db') :
    (∀ p ∈ picks, db'.nb p.reqauth_type ≤ p.slot.max ∧ (p.picker.unrestricted = true →
      db'.nb p.reqauth_type < p.slot.max → db'.nbCand = 0)) ∧
      (∀ j, j ∉ picks.map Pick.reqauth_type → j ≠ .DENY → db'.nb j = db.nb j) ∧
        db'.nbCand ≤ db.nbCand := by
  induction picks generalizing db with
  | nil =>
    obtain rfl : db = db' := hdb'
    exact ⟨fun _ hp => (nomatch hp), fun _ _ _ => rfl, le_refl _⟩
  | cons p picks ih =>
    rw [List.foldl_cons] at hdb'
    obtain ⟨hnotin, hnodup⟩ := List.nodup_cons.1 hpicks.nodup
    have hslot := hpicks.slot p (List.mem_cons_self ..)
    have hdeny : p.reqauth_type ≠ .DENY := fun heq => by
      rw [heq] at hslot
      cases authorised_of_slot hslot
    obtain ⟨m, hm, hgrants, hend⟩ := pickManyCnx_spec hslot now (p.nb2launch db₀) db
    have hn := nb2launch_eq (hasserted p (List.mem_cons_self ..))
    have hle : db₀.nb p.counted ≤ p.slot.max := hasserted p (List.mem_cons_self ..)
    rw [hpicks.counted p (List.mem_cons_self ..)] at hn hle
    have hown := hsame p (List.mem_cons_self ..)
    obtain ⟨hrest, hother, hcand⟩ := ih ⟨fun q hq => hpicks.slot q (List.mem_cons_of_mem _ hq),
        fun q hq => hpicks.counted q (List.mem_cons_of_mem _ hq), hnodup⟩
      (fun q hq => hasserted q (List.mem_cons_of_mem _ hq))
      (fun q hq => by
        have hne : q.reqauth_type ≠ p.reqauth_type := fun heq =>
          hnotin (heq ▸ List.mem_map_of_mem hq)
        have hqdeny : q.reqauth_type ≠ .DENY := fun heq => by
          have hqslot := hpicks.slot q (List.mem_cons_of_mem _ hq)
          rw [heq] at hqslot
          cases authorised_of_slot hqslot
        rw [hgrants.nb_other _ hne hqdeny, hsame q (List.mem_cons_of_mem _ hq)]) hdb'
    have hnb := hother _ hnotin hdeny
    rw [hgrants.nb_self] at hnb
    have hcand' := hgrants.nbCand
    refine ⟨fun q hq => ?_, fun j hj hjdeny => ?_, by omega⟩
    · rcases List.mem_cons.1 hq with rfl | hq
      · refine ⟨by omega, fun hunrestricted hlt => ?_⟩
        -- a slot is left, so the loop ended because none could be picked
        rcases hend with hall | hnone
        · omega
        · have hzero := pick_eq_none hunrestricted hnone
          omega
      · exact hrest q hq
    · rw [List.map_cons, List.mem_cons, not_or] at hj
      rw [hother j hj.2 hjdeny, hgrants.nb_other j hj.1 hjdeny]

theorem granted_pickAll (now : Now) {picks : List Pick}
    (hslot : ∀ p ∈ picks, vapi.slot p.reqauth_type = some p.slot) :
    Granted vapi db (pickAll now picks db) := by
  have hfold : ∀ (l : List Pick) (db₁ : FullDb), (∀ p ∈ l, p ∈ picks) → Granted vapi db db₁ →
      Granted vapi db (l.foldl (fun db₁ p => p.pickManyCnx now (p.nb2launch db) db₁) db₁) := by
    intro l
    induction l with
    | nil => exact fun _ _ h => h
    | cons p l ih =>
      intro db₁ hl h
      have hp := hslot p (hl p (List.mem_cons_self ..))
      obtain ⟨m, -, hgrants, -⟩ := pickManyCnx_spec hp now (p.nb2launch db) db₁
      exact ih _ (fun q hq => hl q (List.mem_cons_of_mem _ hq)) (h.trans hgrants.granted)
  exact hfold picks db (fun _ h => h) (Granted.refl vapi db)

/-- A list of candidates is authorised. -/
theorem grants_foldl {f : Cnx → Cnx} {slot : Slot} (hslot : vapi.slot k = some slot)
    (htype : ∀ c, (f c).reqauth_type = k)
    (htimeout : ∀ c, (f c).reqauth_timeout = some slot.timeout) {l : List ℕ} (hnodup : l.Nodup)
    (hcand : ∀ id ∈ l, ∃ c, db.get id = some c ∧ c.isCand = true) :
    Grants vapi k l.length db (l.foldl (fun db id => KeyedDb.modify db id f) db) := by
  induction l generalizing db with
  | nil => exact Grants.refl vapi k db
  | cons id l ih =>
    obtain ⟨c, hget, hc⟩ := hcand id (List.mem_cons_self ..)
    obtain ⟨hnotin, hnodup⟩ := List.nodup_cons.1 hnodup
    have hone := grants_modify hslot hget hc (htype c) (htimeout c)
    have hcand' : ∀ id' ∈ l, ∃ c, (db.modify id f).get id' = some c ∧ c.isCand = true := by
      intro id' hmem
      have hne : id' ≠ id := by
        rintro rfl
        exact hnotin hmem
      rw [KeyedDb.get_modify, if_neg hne]
      exact hcand id' (List.mem_cons_of_mem _ hmem)
    have hrest := ih hnodup hcand'
    have hall := hone.trans hrest
    rwa [Nat.add_comm] at hall

theorem nbcnx2launch_le (profile : CastiProfile) (now : Now) :
    profile.nbcnx2launch now ≤ profile.reqauth_hope.max := by
  unfold CastiProfile.nbcnx2launch
  split
  · exact le_refl _
  · split_ifs
    · exact le_refl _
    · exact le_refl _
    · exact min_le_left ..

theorem castiUpdate_spec (profile : CastiProfile) (now : Now) (db : FullDb) :
    ∃ m, Grants (.casti profile) .HOPE m db (profile.peerpickUpdate now db) ∧
      (m = 0 ∨ db.nb .HOPE + m ≤ profile.reqauth_hope.max) := by
  unfold CastiProfile.peerpickUpdate
  split_ifs with hfull
  · exact ⟨0, Grants.refl _ _ db, .inl rfl⟩
  · have hperm : (CastiProfile.candFullDb now db).Perm (Now.candidates db fun _ => true) :=
      (List.reverse_perm _).trans (List.perm_insertionSort _ _)
    have hnodup : (CastiProfile.candFullDb now db).Nodup :=
      hperm.nodup_iff.2 (db.nodup.sublist (List.filter_sublist.map _))
    have hslot : (PeerpickVapi.casti profile).slot .HOPE = some profile.reqauth_hope := rfl
    have htimeout : ∀ c : Cnx, ((c.setReqauthType .HOPE
        profile.reqauth_hope.timeout).syncDoauthReqCmd).reqauth_timeout =
          some profile.reqauth_hope.timeout := by
      intro c
      refine (reqauth_timeout_sync _).trans ?_
      rw [Cnx.setReqauthType, if_neg profile.reqauth_hope.timeout_ne]
    refine ⟨_, grants_foldl hslot (fun c => reqauth_type_sync (c.setReqauthType .HOPE _)) htimeout
      (hnodup.sublist (List.take_sublist _ _)) (fun id hmem => ?_), .inr ?_⟩
    · obtain ⟨c, hget, hcand, -⟩ := mem_candidates.1 (hperm.mem_iff.1 (List.mem_of_mem_take hmem))
      exact ⟨c, hget, hcand⟩
    · have hle := nbcnx2launch_le profile now
      rw [List.length_take]
      omega

theorem slot_of_mem_picks {is_seed : Bool} (hp : p ∈ vapi.picks is_seed) :
    vapi.slot p.reqauth_type = some p.slot := by
  cases vapi with
  | plain profile =>
    cases is_seed with
    | true =>
      obtain rfl := List.mem_singleton.1 hp
      rfl
    | false =>
      rcases List.mem_pair.1 hp with rfl | rfl
      · rfl
      · rfl
  | casto profile =>
    simp only [PeerpickVapi.picks, CastoProfile.peerpickUpdate, List.mem_cons,
      List.not_mem_nil, or_false] at hp
    rcases hp with rfl | rfl | rfl | rfl <;> rfl
  | relay profile =>
    simp only [PeerpickVapi.picks, RelayProfile.peerpickUpdate, List.mem_cons,
      List.not_mem_nil, or_false] at hp
    rcases hp with rfl | rfl | rfl <;> rfl
  | casti profile => cases hp

/-- All updates count what they give, but for the one of `plain` on a seed. -/
theorem faithful_picks {is_seed : Bool} (h : ∀ profile, vapi = .plain profile → is_seed = false) :
    Faithful vapi (vapi.picks is_seed) := by
  refine ⟨fun p hp => slot_of_mem_picks hp, fun p hp => ?_, ?_⟩
  · cases vapi with
    | plain profile =>
      rw [h profile rfl] at hp
      rcases List.mem_pair.1 hp with rfl | rfl
      · rfl
      · rfl
    | casto profile =>
      simp only [PeerpickVapi.picks, CastoProfile.peerpickUpdate, List.mem_cons,
        List.not_mem_nil, or_false] at hp
      rcases hp with rfl | rfl | rfl | rfl <;> rfl
    | relay profile =>
      simp only [PeerpickVapi.picks, RelayProfile.peerpickUpdate, List.mem_cons,
        List.not_mem_nil, or_false] at hp
      rcases hp with rfl | rfl | rfl <;> rfl
    | casti profile => cases hp
  · cases vapi with
    | plain profile =>
      rw [h profile rfl]
      show ([.COOP, .HOPE] : List ReqauthType).Nodup
      decide
    | casto profile =>
      show ([.COOP, .HOPE, .FSTART, .IDLE] : List ReqauthType).Nodup
      decide
    | relay profile =>
      show ([.GIVE, .FSTART, .IDLE] : List ReqauthType).Nodup
      decide
    | casti profile => exact List.nodup_nil

theorem granted_peerSelectUpdate (now : Now) (s : Swarm) :
    Granted vapi s.full_db (s.peerSelectUpdate vapi now).full_db := by
  have hpicks := fun p (hp : p ∈ vapi.picks s.is_seed) => slot_of_mem_picks hp
  cases vapi with
  | plain profile => exact granted_pickAll now hpicks
  | casto profile => exact granted_pickAll now hpicks
  | relay profile => exact granted_pickAll now hpicks
  | casti profile =>
    obtain ⟨m, hgrants, -⟩ := castiUpdate_spec profile now s.full_db
    exact hgrants.granted

/-- What is authorised by an update has its delay. -/
theorem SlotsOk.of_granted (h : SlotsOk vapi s) (hgranted : Granted vapi s.full_db u.full_db)
    (hwithin : ∀ k, k.authorised = true →
      u.full_db.nb k ≤ ((vapi.slot k).map Slot.max).getD 0) : SlotsOk vapi u where
  within := hwithin
  expiring id c hget hauth := by
    rcases hgranted.given id c hget with hold | hslot
    · exact h.expiring id c hold hauth
    · exact hslot

/-- An update which counts what it gives. -/
theorem peerSelectUpdate_of_faithful {picks : List Pick} (h : SlotsOk vapi s)
    (hpicks : Faithful vapi picks) (hu : u.full_db = pickAll now picks s.full_db) :
    SlotsOk vapi u ∧ (∀ p ∈ picks, p.asserted s.full_db) ∧
      ∀ p ∈ picks, p.picker.unrestricted = true → u.full_db.nb p.reqauth_type < p.slot.max →
        u.full_db.nbCand = 0 := by
  have hasserted : ∀ p ∈ picks, p.asserted s.full_db := by
    intro p hp
    have hslot := hpicks.slot p hp
    have hle := h.within p.reqauth_type (authorised_of_slot hslot)
    rw [hslot, Option.map_some, Option.getD_some] at hle
    rw [Pick.asserted, hpicks.counted p hp]
    exact hle
  obtain ⟨hown, hother, -⟩ := foldl_pickManyCnx_spec now hpicks hasserted (fun _ _ => rfl) hu.symm
  refine ⟨h.of_granted (hu ▸ granted_pickAll now hpicks.slot) fun k hk => ?_, hasserted,
    fun p hp => (hown p hp).2⟩
  by_cases hmem : k ∈ picks.map Pick.reqauth_type
  · obtain ⟨p, hp, rfl⟩ := List.mem_map.1 hmem
    rw [hpicks.slot p hp, Option.map_some, Option.getD_some]
    exact (hown p hp).1
  · rw [hother k hmem]
    · exact h.within k hk
    · rintro rfl
      cases hk

theorem peerSelectUpdate_spec (h : SlotsOk vapi s)
    (hplain : ∀ profile, vapi = .plain profile → s.is_seed = false) (now : Now) :
    SlotsOk vapi (s.peerSelectUpdate vapi now) ∧
      (∀ p ∈ vapi.picks s.is_seed, p.asserted s.full_db) ∧
        ∀ p ∈ vapi.picks s.is_seed, p.picker.unrestricted = true →
          (s.peerSelectUpdate vapi now).full_db.nb p.reqauth_type < p.slot.max →
            (s.peerSelectUpdate vapi now).full_db.nbCand = 0 := by
  cases vapi with
  | plain profile => exact peerSelectUpdate_of_faithful h (faithful_picks hplain) rfl
  | casto profile => exact peerSelectUpdate_of_faithful h (faithful_picks hplain) rfl
  | relay profile => exact peerSelectUpdate_of_faithful h (faithful_picks hplain) rfl
  | casti profile =>
    refine ⟨?_, fun _ hp => (nomatch hp), fun _ hp => (nomatch hp)⟩
    obtain ⟨m, hgrants, hm⟩ := castiUpdate_spec profile now s.full_db
    refine h.of_granted hgrants.granted fun k hk => ?_
    have hle := h.within k hk
    by_cases hhope : k = .HOPE
    · subst hhope
      have hself : (s.peerSelectUpdate (.casti profile) now).full_db.nb .HOPE = _ :=
        hgrants.nb_self
      have hle : s.full_db.nb .HOPE ≤ profile.reqauth_hope.max := hle
      show _ ≤ profile.reqauth_hope.max
      omega
    · have hother := hgrants.nb_other k hhope fun heq => by
        rw [heq] at hk
        cases hk
      exact (le_of_eq hother).trans hle

/-- One call with an unrestricted function gives as many slots as are left, or to all candidates. -/
theorem pickAll_singleton_spec (hslot : vapi.slot p.reqauth_type = some p.slot)
    (hunrestricted : p.picker.unrestricted = true) (hasserted : p.asserted db) (now : Now) :
    ∃ m, Grants vapi p.reqauth_type m db (pickAll now [p] db) ∧
      m = min (p.slot.max - db.nb p.counted) db.nbCand := by
  rw [pickAll, List.foldl_cons, List.foldl_nil]
  obtain ⟨m, hm, hgrants, hend⟩ := pickManyCnx_spec hslot now (p.nb2launch db) db
  have hn := nb2launch_eq hasserted
  have hcand := hgrants.nbCand
  refine ⟨m, hgrants, ?_⟩
  rcases hend with heq | hnone
  · omega
  · have hzero := pick_eq_none hunrestricted hnone
    omega

/-- The update of `plain` on a seed: as many are given `GIVE` as its maximum less those in `HOPE`,
or all candidates. -/
theorem peerSelectUpdate_seed {profile : PlainProfile} (hseed : s.is_seed = true)
    (hasserted : s.full_db.nb .HOPE ≤ profile.reqauth_give.max) (now : Now) :
    ∃ m, Grants (.plain profile) .GIVE m s.full_db
        (s.peerSelectUpdate (.plain profile) now).full_db ∧
      m = min (profile.reqauth_give.max - s.full_db.nb .HOPE) s.full_db.nbCand := by
  have heq : (s.peerSelectUpdate (.plain profile) now).full_db =
      pickAll now profile.peerSelectUpdateSeed s.full_db := by
    show pickAll now (if s.is_seed then _ else _) _ = _
    rw [hseed, if_pos rfl]
  rw [heq]
  exact @pickAll_singleton_spec (.plain profile) s.full_db
    ⟨.GIVE, .HOPE, profile.reqauth_give, profile.reqauth_give_prec, .pick_random_any⟩
    rfl rfl hasserted now

/-! ### Handlers -/

theorem nb_eq_map : db.nb k = (db.map Cnx.reqauth_type).count fun j => j = k := by
  rw [KeyedDb.count_map]
  rfl

theorem nbCand_eq_map : db.nbCand = (db.map Cnx.isCand).count fun b => b := by
  rw [KeyedDb.count_map]
  rfl

theorem nb_modify_same {f : Cnx → Cnx} (hf : ∀ c, (f c).reqauth_type = c.reqauth_type) :
    FullDb.nb (db.modify id f) k = db.nb k := by
  rw [nb_eq_map, KeyedDb.map_modify_self hf, nb_eq_map]

theorem nbCand_modify_same {f : Cnx → Cnx} (hf : ∀ c, (f c).isCand = c.isCand) :
    FullDb.nbCand (db.modify id f) = db.nbCand := by
  rw [nbCand_eq_map, KeyedDb.map_modify_self hf, nbCand_eq_map]

/-- What does not change any authorisation. -/
theorem SlotsOk.modify {f : Cnx → Cnx} (h : SlotsOk vapi s)
    (htype : ∀ c, (f c).reqauth_type = c.reqauth_type)
    (htimeout : ∀ c, (f c).reqauth_timeout = c.reqauth_timeout) :
    SlotsOk vapi (s.modify id f) where
  within k hk := (le_of_eq (nb_modify_same htype)).trans (h.within k hk)
  expiring id' c hget hauth := by
    have hget : (KeyedDb.modify s.full_db id f).get id' = some c := hget
    rw [KeyedDb.get_modify] at hget
    split_ifs at hget with heq
    · obtain ⟨c₀, hc₀, rfl⟩ := Option.map_eq_some_iff.1 hget
      rw [htype] at hauth ⊢
      rw [htimeout]
      exact h.expiring id c₀ hc₀ hauth
    · exact h.expiring id' c hget hauth

/-- An authorisation is taken away. -/
theorem SlotsOk.unauthorise {f : Cnx → Cnx} (h : SlotsOk vapi s)
    (hget : s.full_db.get id = some c) (hf : ∀ c, (f c).reqauth_type.authorised = false) :
    SlotsOk vapi (s.modify id f) where
  within k hk := by
    have hnb := nb_modify (k := k) (f := f) hget
    have hnot : (f c).reqauth_type ≠ k := by
      intro heq
      have hauth := hf c
      rw [heq, hk] at hauth
      cases hauth
    rw [if_neg hnot] at hnb
    exact (Nat.le_of_add_right_le hnb.le).trans (h.within k hk)
  expiring id' c' hget' hauth := by
    have hget' : (KeyedDb.modify s.full_db id f).get id' = some c' := hget'
    rw [KeyedDb.get_modify] at hget'
    split_ifs at hget' with heq
    · obtain ⟨c₀, -, rfl⟩ := Option.map_eq_some_iff.1 hget'
      rw [hf] at hauth
      cases hauth
    · exact h.expiring id' c' hget' hauth

theorem SlotsOk.erase (h : SlotsOk vapi s) (id : ℕ) :
    SlotsOk vapi { s with full_db := s.full_db.erase id } where
  within k hk := by
    refine le_trans ?_ (h.within k hk)
    exact (List.filter_sublist).countP_le
  expiring id' c hget hauth := by
    have hget : (KeyedDb.erase s.full_db id).get id' = some c := hget
    rw [KeyedDb.get_erase] at hget
    split_ifs at hget with heq
    exact h.expiring id' c hget hauth

/-- The three handlers which update the peer selection. -/
theorem updated_cases (hu : s.updated e = some u) :
    (∃ id now c, e = .close id now ∧ s.full_db.get id = some c ∧
      (c.notified_as_open && c.reqauth_type ≠ .DENY) = true ∧
        u = s.modify id fun c => c.setReqauthType .NONE Delay.NEVER) ∨
    (∃ id now, e = .dowant_req id now ∧ s.isOpen id = true ∧
      u = s.modify id fun c => { c with other_dowant_req := true }) ∨
    ∃ id now c period, e = .reqauth_timeout id now ∧ s.full_db.get id = some c ∧
      c.reqauth_timeout = some period ∧ period ≠ Delay.NEVER ∧
        u = s.modify id fun c => c.setReqauthType .DENY Delay.NEVER := by
  cases e with
  | start id => cases hu
  | notify_cnx_open id => cases hu
  | unwant_req id => cases hu
  | local_pavail is_seed => cases hu
  | close id now =>
    unfold Swarm.updated at hu
    dsimp only at hu
    split at hu
    · cases hu
    next c hget =>
      split_ifs at hu with hopen
      exact .inl ⟨id, now, c, rfl, hget, hopen, (Option.some.inj hu).symm⟩
  | dowant_req id now =>
    unfold Swarm.updated at hu
    dsimp only at hu
    split_ifs at hu with hopen
    exact .inr (.inl ⟨id, now, rfl, hopen, (Option.some.inj hu).symm⟩)
  | reqauth_timeout id now =>
    unfold Swarm.updated at hu
    dsimp only at hu
    split at hu
    · cases hu
    next period hperiod =>
      split_ifs at hu with hnever
      obtain ⟨c, hget, hc⟩ := Option.bind_eq_some_iff.1 hperiod
      exact .inr (.inr ⟨id, now, c, period, rfl, hget, hc, hnever, (Option.some.inj hu).symm⟩)

/-- The swarm whose peer selection is updated has no more slots taken. -/
theorem slotsOk_updated (h : SlotsOk vapi s) (hu : s.updated e = some u) : SlotsOk vapi u := by
  rcases updated_cases hu with ⟨id, now, c, -, hget, -, rfl⟩ | ⟨id, now, -, -, rfl⟩ |
    ⟨id, now, c, period, -, hget, -, -, rfl⟩
  · exact h.unauthorise hget fun _ => rfl
  · exact h.modify (fun _ => rfl) fun _ => rfl
  · exact h.unauthorise hget fun _ => rfl

/-- A handler which updates no peer selection authorises nobody. -/
theorem slotsOk_step_of_none (h : SlotsOk vapi s) (hu : s.updated e = none) :
    SlotsOk vapi (s.step vapi e) := by
  cases e with
  | start id =>
    cases hget : s.full_db.get id with
    | some c =>
      rw [Swarm.step, KeyedDb.push, KeyedDb.link_of_some hget]
      exact h
    | none =>
      refine ⟨fun k hk => ?_, fun id' c hget' hauth => ?_⟩
      · have hcount : ((s.full_db.link (fun _ => true) id Cnx.start).count
            (fun c => c.reqauth_type = k) : Int) = _ := KeyedDb.count_link hget
        rw [if_neg] at hcount
        · have hle := h.within k hk
          unfold FullDb.nb at hle ⊢
          show (s.full_db.link (fun _ => true) id Cnx.start).count _ ≤ _
          omega
        -- a new connection is denied, and no profile has a slot for that
        · intro heq
          rw [← of_decide_eq_true heq] at hk
          cases hk
      · have hget' : (s.full_db.link (fun _ => true) id Cnx.start).get id' = some c := hget'
        rw [KeyedDb.get_link hget] at hget'
        split_ifs at hget'
        · obtain rfl := Option.some.inj hget'
          cases hauth
        · exact h.expiring id' c hget' hauth
  | notify_cnx_open id => exact h.modify (fun _ => rfl) fun _ => rfl
  | unwant_req id => exact h.modify (fun _ => rfl) fun _ => rfl
  | local_pavail is_seed => exact ⟨h.within, h.expiring⟩
  | close id now =>
    cases hget : s.full_db.get id with
    | none =>
      simp only [Swarm.step, Swarm.close, hget]
      exact h
    | some c =>
      simp only [Swarm.updated, hget] at hu
      split_ifs at hu with hopen
      simp only [Swarm.step, Swarm.close, hget]
      rw [if_neg hopen]
      exact h.erase id
  | dowant_req id now =>
    unfold Swarm.updated at hu
    dsimp only at hu
    split_ifs at hu with hopen
    rw [Swarm.step, if_neg hopen]
    exact h
  | reqauth_timeout id now =>
    cases hperiod : (s.full_db.get id).bind Cnx.reqauth_timeout with
    | none =>
      simp only [Swarm.step, Swarm.timeoutExpire, hperiod]
      exact h
    | some period =>
      simp only [Swarm.updated, hperiod] at hu
      split_ifs at hu with hnever
      simp only [Swarm.step, Swarm.timeoutExpire, hperiod]
      rw [if_pos hnever]
      exact h

theorem isCand_sync (c : Cnx) : c.syncDoauthReqCmd.isCand = c.isCand := by
  unfold Cnx.syncDoauthReqCmd
  split
  · rfl
  · rfl

/-- After its update a handler changes no authorisation any more, but that the connection which is
closed is gone. -/
theorem step_of_updated (hu : s.updated e = some u) : ∃ now,
    (∀ k, k.authorised = true →
      (s.step vapi e).full_db.nb k = (u.peerSelectUpdate vapi now).full_db.nb k) ∧
    (s.step vapi e).full_db.nbCand = (u.peerSelectUpdate vapi now).full_db.nbCand ∧
    (SlotsOk vapi (u.peerSelectUpdate vapi now) → SlotsOk vapi (s.step vapi e)) := by
  rcases updated_cases hu with ⟨id, now, c, rfl, hget, hopen, rfl⟩ | ⟨id, now, rfl, hopen, rfl⟩ |
    ⟨id, now, c, period, rfl, hget, hperiod, hnever, rfl⟩
  · refine ⟨now, ?_⟩
    have hnone : (s.modify id fun c => c.setReqauthType .NONE Delay.NEVER).full_db.get id =
        some (c.setReqauthType .NONE Delay.NEVER) := by
      show (KeyedDb.modify s.full_db id _).get id = _
      rw [KeyedDb.get_modify_self, hget, Option.map_some]
    have hnot : (c.setReqauthType .NONE Delay.NEVER).isCand = false := by
      rw [Cnx.isCand, Bool.and_eq_false_iff]
      exact .inr rfl
    -- the update does not look at the connection which is closed
    have hgranted : Granted vapi _ _ := granted_peerSelectUpdate now
      (s.modify id fun c => c.setReqauthType .NONE Delay.NEVER)
    have hkept := hgranted.kept _ _ hnone hnot
    have hstep : (s.step vapi (.close id now)).full_db =
        (((s.modify id fun c => c.setReqauthType .NONE Delay.NEVER).peerSelectUpdate
          vapi now).full_db).erase id := by
      unfold Swarm.step Swarm.close
      dsimp only
      rw [hget]
      dsimp only
      rw [if_pos hopen]
      exact KeyedDb.erase_modify
    refine ⟨fun k hk => ?_, ?_, fun h => ?_⟩
    · have hcount := KeyedDb.count_eq_erase (p := fun c => c.reqauth_type = k) hkept
      rw [if_neg fun heq => by
        rw [← of_decide_eq_true heq] at hk
        cases hk] at hcount
      rw [hstep]
      exact hcount.symm
    · have hcount := KeyedDb.count_eq_erase (p := Cnx.isCand) hkept
      rw [hnot, if_neg Bool.false_ne_true] at hcount
      rw [hstep]
      exact hcount.symm
    · have herase := h.erase id
      refine ⟨fun k hk => ?_, fun id' c' hget' => ?_⟩
      · rw [hstep]
        exact herase.within k hk
      · rw [hstep] at hget'
        exact herase.expiring id' c' hget'
  · refine ⟨now, ?_⟩
    rw [Swarm.step, if_pos hopen]
    exact ⟨fun _ _ => rfl, rfl, fun h => h⟩
  · refine ⟨now, ?_⟩
    have hstep : s.step vapi (.reqauth_timeout id now) =
        s.parseReqauthTimedout vapi now id := by
      unfold Swarm.step Swarm.timeoutExpire
      dsimp only
      rw [hget, Option.bind_some, hperiod]
      dsimp only
      rw [if_neg hnever]
    rw [hstep]
    have htype : ∀ c : Cnx, (if c.reqauth_type = .DENY then
        c.syncDoauthReqCmd.setReqauthPrecXmit 0 else c.syncDoauthReqCmd).reqauth_type =
          c.reqauth_type := by
      intro c
      split_ifs
      · exact reqauth_type_sync c
      · exact reqauth_type_sync c
    refine ⟨fun k hk => nb_modify_same htype, nbCand_modify_same fun c => ?_, fun h =>
      h.modify htype fun c => ?_⟩
    · split_ifs
      · exact isCand_sync c
      · exact isCand_sync c
    · split_ifs
      · exact reqauth_timeout_sync c
      · exact reqauth_timeout_sync c

/-! ### Runs -/

/-- All updates but the one of `plain` on a seed do what is claimed. -/
theorem updateOk_of_spec (h : SlotsOk vapi s) (hu : s.updated e = some u)
    (hplain : ∀ profile, vapi = .plain profile → u.is_seed = false) :
    SlotsOk vapi (s.step vapi e) ∧ UpdateOk vapi s e := by
  obtain ⟨now, hnb, hcand, hok⟩ := @step_of_updated vapi _ _ _ hu
  obtain ⟨hafter, hasserted, hfilled⟩ := peerSelectUpdate_spec (slotsOk_updated h hu) hplain now
  refine ⟨hok hafter, fun u' hu' => ?_, fun u' hu' p hp hunrestricted hlt => ?_⟩
  · obtain rfl := Option.some.inj (hu.symm.trans hu')
    exact hasserted
  · obtain rfl := Option.some.inj (hu.symm.trans hu')
    rw [hnb _ (authorised_of_slot (slot_of_mem_picks hp))] at hlt
    rw [hcand]
    exact hfilled p hp hunrestricted hlt

/-- The update of `plain` on a seed does what is claimed if and only if what it gives does not
depend on which kind it counts. -/
theorem updateOk_seed_iff {profile : PlainProfile} (h : SlotsOk (.plain profile) s)
    (hu : s.updated e = some u) (hseed : u.is_seed = true) :
    SlotsOk (.plain profile) (s.step (.plain profile) e) ∧ UpdateOk (.plain profile) s e ↔
      CountsAgree profile u.full_db := by
  obtain ⟨now, hnb, hcand, hok⟩ := @step_of_updated (.plain profile) _ _ _ hu
  have hbefore := slotsOk_updated h hu
  have hgive : u.full_db.nb .GIVE ≤ profile.reqauth_give.max := hbefore.within .GIVE rfl
  let p : Pick :=
    { reqauth_type := .GIVE
      counted := .HOPE
      slot := profile.reqauth_give
      prec := profile.reqauth_give_prec
      picker := .pick_random_any }
  have hpicks : (PeerpickVapi.plain profile).picks u.is_seed = [p] := by
    rw [hseed]
    rfl
  constructor
  · rintro ⟨hslots, hupdate⟩
    have hp : p ∈ (PeerpickVapi.plain profile).picks u.is_seed := by
      rw [hpicks]
      exact List.mem_singleton_self p
    have hasserted : u.full_db.nb .HOPE ≤ profile.reqauth_give.max := hupdate.asserted u hu p hp
    obtain ⟨m, hgrants, hm⟩ := peerSelectUpdate_seed hseed hasserted now
    have hself := hgrants.nb_self
    have hleft := hgrants.nbCand
    have hwithin : _ ≤ profile.reqauth_give.max := hslots.within .GIVE rfl
    have hfilled : (s.step (.plain profile) e).full_db.nb .GIVE < profile.reqauth_give.max →
        (s.step (.plain profile) e).full_db.nbCand = 0 := hupdate.filled u hu p hp rfl
    rw [hnb _ rfl] at hwithin
    rw [hnb _ rfl, hcand] at hfilled
    -- the connections given are those which the count of `HOPE` leaves: too many or too few
    by_contra hne
    rw [CountsAgree, not_or] at hne
    obtain ⟨hne, hlt⟩ := hne
    omega
  · intro hfits
    unfold CountsAgree at hfits
    have hasserted : u.full_db.nb .HOPE ≤ profile.reqauth_give.max := by omega
    obtain ⟨m, hgrants, hm⟩ := peerSelectUpdate_seed hseed hasserted now
    have hself := hgrants.nb_self
    have hleft := hgrants.nbCand
    refine ⟨hok (hbefore.of_granted hgrants.granted fun k hk => ?_), fun u' hu' q hq => ?_,
      fun u' hu' q hq hunrestricted hlt => ?_⟩
    · by_cases hkind : k = .GIVE
      · subst hkind
        show _ ≤ profile.reqauth_give.max
        omega
      · rw [hgrants.nb_other k hkind fun heq => by
          rw [heq] at hk
          cases hk]
        exact hbefore.within k hk
    · obtain rfl := Option.some.inj (hu.symm.trans hu')
      rw [hpicks] at hq
      obtain rfl := List.mem_singleton.1 hq
      exact hasserted
    · obtain rfl := Option.some.inj (hu.symm.trans hu')
      rw [hpicks] at hq
      obtain rfl := List.mem_singleton.1 hq
      have hlt : (s.step (.plain profile) e).full_db.nb .GIVE < profile.reqauth_give.max := hlt
      rw [hnb _ rfl] at hlt
      rw [hcand]
      omega

theorem slotsOk_init (vapi : PeerpickVapi) (is_seed : Bool) :
    SlotsOk vapi (Swarm.init is_seed) where
  within _ _ := Nat.zero_le _
  expiring _ _ hget := nomatch hget

/-- **Slots**: with any policy and profile, whatever happens to the connections, no kind has more
connections than its maximum, each authorisation has its delay, the assertions of each update hold
and it leaves no slot which it could have given, if and only if what each update of `plain` on a
seed gives does not depend on which kind it counts. -/
theorem slots_iff (vapi : PeerpickVapi) (is_seed : Bool) (evs : List Event) :
    Always (Swarm.step vapi) (SlotsOk vapi) (Swarm.init is_seed) evs ∧
        Guarded (Swarm.step vapi) (UpdateOk vapi) (Swarm.init is_seed) evs ↔
      Guarded (Swarm.step vapi) (SeedFits vapi) (Swarm.init is_seed) evs := by
  refine always_and_guarded_iff (W := fun _ => True) (Q := fun _ => True) (fun _ _ _ _ _ => trivial)
    (fun s e _ h _ => ?_) (slotsOk_init vapi is_seed) trivial always_true
  cases hu : s.updated e with
  | none =>
    refine iff_of_true ⟨slotsOk_step_of_none h hu, ?_, ?_⟩ ?_
    · intro u hu'
      rw [hu] at hu'
      cases hu'
    · intro u hu'
      rw [hu] at hu'
      cases hu'
    · intro u hu'
      rw [hu] at hu'
      cases hu'
  | some u =>
    by_cases hplain : ∀ profile, vapi = .plain profile → u.is_seed = false
    · refine iff_of_true (updateOk_of_spec h hu hplain) fun u' hu' hseed profile hvapi => ?_
      obtain rfl := Option.some.inj (hu.symm.trans hu')
      rw [hplain profile hvapi] at hseed
      cases hseed
    · push Not at hplain
      obtain ⟨profile, rfl, hseed⟩ := hplain
      have hseed := Bool.eq_true_of_not_eq_false hseed
      rw [updateOk_seed_iff h hu hseed]
      constructor
      · intro hagree u' hu' _ profile' hvapi
        obtain rfl := Option.some.inj (hu.symm.trans hu')
        obtain rfl := PeerpickVapi.plain.inj hvapi
        exact hagree
      · exact fun hall => hall u hu hseed profile rfl

/-! ### A seed gives too much -/

def nothingKnown : Now where
  recv_rate_avg _ := 0
  byteacct _ := none
  fstart _ := none
  rand _ := 0
  xmit_max_rate := none
  cnx_minrate := 0

/-- Five peers connect to a seed, one by one, and want to request. -/
def fiveWants : List Event :=
  (List.range 5).flatMap fun id => [.start id, .notify_cnx_open id, .dowant_req id nothingKnown]

theorem nb_fiveWants : (run (Swarm.step (.plain .dfl)) (Swarm.init true) fiveWants).full_db.nb
    .GIVE = 5 := by
  decide +kernel

/-- All five are given `GIVE`, of which there may be four. -/
theorem not_slots_fiveWants :
    ¬Always (Swarm.step (.plain .dfl)) (SlotsOk (.plain .dfl)) (Swarm.init true) fiveWants := by
  intro h
  have hle : _ ≤ 4 := h.run.within .GIVE rfl
  rw [nb_fiveWants] at hle
  exact absurd hle (by decide)

end Neoip.Peerpick
