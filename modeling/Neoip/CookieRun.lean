/-
Neoip/CookieRun.lean

A cookie database in use: any sequence of `generate`, `check`, `accept` and
renewals of the secret.

A cookie is accepted after a check which succeeded, and since which neither the
secret was renewed nor the cookie accepted; `checked` has the checks of which
this is true.  The MAC is taken to be injective on the secrets which are drawn
and on the paths which occur, and no secret is drawn twice.

The invariant `Ok` says that the two sets of accepted cookies are what has been
accepted under the two secrets.  From it, a check succeeds on the cookies of
the path under the two secrets which have not been accepted
(`Ok.check_iff`), and `age` says which of these the secret of a cookie is.

Main result: `cookie_once`.
-/
import Mathlib.Data.Set.Prod
import Neoip.Cookie
import Neoip.Run

namespace Neoip

/-- The calls of a user, and the timer. -/
inductive CookieEvent
  | generate (pathid : Datum)
  | check (pathid : Datum) (cookie_id : CookieId)
  | accept (pathid : Datum) (cookie_id : CookieId)
  | rekey (secret : Datum)

namespace CookieEvent

def isRekey : CookieEvent → Bool
  | .rekey _ => true
  | _ => false

end CookieEvent

/-- A database, and the checks after which an acceptance may come. -/
structure CookieUse where
  db : CookieDb
  checked : List (Datum × CookieId)

namespace CookieDb

local instance : LawfulBEq CookieId := inferInstance

/-- What `accept` asserts: the cookie is of one of the secrets, and its insertion in the set of
this one succeeds. -/
def acceptSucceed (hmac : Datum → Datum → CookieId) (pathid : Datum) (cookie_id : CookieId)
    (db : CookieDb) : Bool :=
  if cookie_id = cpu hmac pathid db.cur_secret then cookie_id ∉ db.cur_accepted_db
  else if cookie_id = cpu hmac pathid db.old_secret then cookie_id ∉ db.old_accepted_db
  else false

end CookieDb

namespace CookieUse

open CookieDb

variable (hmac : Datum → Datum → CookieId) (secrets paths : Set Datum)

def start (secret : Datum) : CookieUse := ⟨.ctor secret, []⟩

def step (s : CookieUse) : CookieEvent → CookieUse
  | .generate _ => s
  | .check pathid cookie_id =>
    if s.db.check hmac pathid cookie_id then { s with checked := (pathid, cookie_id) :: s.checked }
    else s
  | .accept pathid cookie_id =>
    ⟨s.db.accept hmac pathid cookie_id, s.checked.filter fun e => e.2 ≠ cookie_id⟩
  | .rekey secret => ⟨s.db.rekey secret, []⟩

/-- A secret was not drawn before, and a cookie which is accepted has been checked. -/
def Allowed (s : CookieUse) : CookieEvent → Prop
  | .generate pathid => pathid ∈ paths
  | .check pathid _ => pathid ∈ paths
  | .accept pathid cookie_id => (pathid, cookie_id) ∈ s.checked
  | .rekey secret => secret ∈ secrets ∧ secret ∉ s.db.secrets

/-! ### The invariant -/

/-- The invariant of a run. -/
structure Ok (s : CookieUse) : Prop where
  once : s.db.Once
  cur_accepted : ∀ cookie_id ∈ s.db.cur_accepted_db, (s.db.cur_secret, cookie_id) ∈ s.db.accepted
  old_accepted : ∀ cookie_id ∈ s.db.old_accepted_db, (s.db.old_secret, cookie_id) ∈ s.db.accepted
  secrets : ∀ secret ∈ s.db.secrets, secret ∈ secrets
  made : ∀ e ∈ s.db.accepted, ∃ pathid ∈ paths, e.2 = cpu hmac pathid e.1
  checked : ∀ e ∈ s.checked, e.1 ∈ paths ∧ s.db.check hmac e.1 e.2 = true

/-- The MAC is injective on the secrets and the paths. -/
def Injective : Prop := Set.InjOn (fun e : Datum × Datum => cpu hmac e.2 e.1) (secrets ×ˢ paths)

variable {hmac secrets paths} {s : CookieUse} {pathid secret : Datum} {cookie_id : CookieId}

theorem Injective.eq (h : Injective hmac secrets paths) {secret' pathid' : Datum}
    (hsecret : secret ∈ secrets) (hsecret' : secret' ∈ secrets) (hpathid : pathid ∈ paths)
    (hpathid' : pathid' ∈ paths) (heq : cpu hmac pathid secret = cpu hmac pathid' secret') :
    secret = secret' ∧ pathid = pathid' := by
  have hpair : (secret, pathid) = (secret', pathid') :=
    h (Set.mk_mem_prod hsecret hpathid) (Set.mk_mem_prod hsecret' hpathid') heq
  exact Prod.mk.inj hpair

theorem Ok.cur_mem (h : s.Ok hmac secrets paths) : s.db.cur_secret ∈ secrets :=
  h.secrets _ h.once.cur_drawn

theorem Ok.old_mem (h : s.Ok hmac secrets paths) : s.db.old_secret ∈ secrets :=
  h.secrets _ h.once.old_drawn

/-- A cookie which was accepted, and is the one of a path under a secret, was accepted under
this one. -/
theorem Ok.secret_eq (h : s.Ok hmac secrets paths) (hinj : Injective hmac secrets paths)
    (hpathid : pathid ∈ paths) (hsecret : secret ∈ secrets) {e : Datum × CookieId}
    (he : e ∈ s.db.accepted) (heq : e.2 = cpu hmac pathid secret) : e.1 = secret := by
  obtain ⟨pathid', hpathid', hmade⟩ := h.made e he
  have hdrawn : e.1 ∈ secrets := h.secrets _ (h.once.drawn e he)
  rw [hmade] at heq
  exact (hinj.eq hdrawn hsecret hpathid' hpathid heq).1

theorem Ok.oneSecret (h : s.Ok hmac secrets paths) (hinj : Injective hmac secrets paths)
    (hpathid : pathid ∈ paths) (hcheck : s.db.check hmac pathid cookie_id = true) :
    s.db.OneSecret hmac pathid cookie_id := by
  rintro e he rfl
  rcases cases_of_check hcheck with hcur | ⟨hcur, hold⟩
  · rw [if_pos hcur]
    exact h.secret_eq hinj hpathid h.cur_mem he hcur
  · rw [if_neg hcur]
    exact h.secret_eq hinj hpathid h.old_mem he hold

/-- **A check** succeeds on the cookies of the path under the two secrets which have not been
accepted. -/
theorem Ok.check_iff (h : s.Ok hmac secrets paths) (hinj : Injective hmac secrets paths)
    (hpathid : pathid ∈ paths) : s.db.check hmac pathid cookie_id = true
      ↔ (cookie_id = cpu hmac pathid s.db.cur_secret ∨ cookie_id = cpu hmac pathid s.db.old_secret)
        ∧ cookie_id ∉ s.db.accepted.map Prod.snd := by
  constructor
  · intro hcheck
    refine ⟨?_, h.once.not_mem_accepted hcheck (h.oneSecret hinj hpathid hcheck)⟩
    rcases cases_of_check hcheck with hcur | ⟨-, hold⟩
    · exact .inl hcur
    · exact .inr hold
  · rintro ⟨hmade, hnew⟩
    rw [CookieDb.check]
    by_cases hcur : cookie_id = cpu hmac pathid s.db.cur_secret
    · rw [if_pos hcur]
      exact decide_eq_true fun hmem => hnew (List.mem_map_of_mem (h.cur_accepted _ hmem))
    · rw [if_neg hcur, if_pos (hmade.resolve_left hcur)]
      exact decide_eq_true fun hmem => hnew (List.mem_map_of_mem (h.old_accepted _ hmem))

/-! ### The steps -/

theorem ok_start (hsecret : secret ∈ secrets) : (start secret).Ok hmac secrets paths where
  once := once_ctor secret
  cur_accepted _ hmem := nomatch hmem
  old_accepted _ hmem := nomatch hmem
  secrets secret' hmem := by
    rw [List.mem_singleton.1 hmem]
    exact hsecret
  made _ he := nomatch he
  checked _ he := nomatch he

theorem Ok.check (h : s.Ok hmac secrets paths) (hpathid : pathid ∈ paths) :
    (s.step hmac (.check pathid cookie_id)).Ok hmac secrets paths := by
  rw [step]
  split_ifs with hcheck
  · refine ⟨h.once, h.cur_accepted, h.old_accepted, h.secrets, h.made, fun e he => ?_⟩
    rcases List.mem_cons.1 he with rfl | he
    · exact ⟨hpathid, hcheck⟩
    · exact h.checked e he
  · exact h

/-- A check leaves the database as it was. -/
theorem db_check (s : CookieUse) (pathid : Datum) (cookie_id : CookieId) :
    (s.step hmac (.check pathid cookie_id)).db = s.db := by
  rw [step]
  split_ifs
  · rfl
  · rfl

/-- What an acceptance leaves as it was. -/
theorem accept_frame (db : CookieDb) (pathid : Datum) (cookie_id : CookieId) :
    (db.accept hmac pathid cookie_id).cur_secret = db.cur_secret
      ∧ (db.accept hmac pathid cookie_id).old_secret = db.old_secret
      ∧ (db.accept hmac pathid cookie_id).secrets = db.secrets := by
  rw [CookieDb.accept]
  split_ifs
  · exact ⟨rfl, rfl, rfl⟩
  · exact ⟨rfl, rfl, rfl⟩
  · exact ⟨rfl, rfl, rfl⟩

theorem Ok.accept (h : s.Ok hmac secrets paths) (hinj : Injective hmac secrets paths)
    (hmem : (pathid, cookie_id) ∈ s.checked) :
    (s.step hmac (.accept pathid cookie_id)).Ok hmac secrets paths := by
  have hpathid : pathid ∈ paths := (h.checked _ hmem).1
  have hcheck : s.db.check hmac pathid cookie_id = true := (h.checked _ hmem).2
  have hframe : (s.db.accept hmac pathid cookie_id).cur_secret = _ ∧ _ :=
    accept_frame s.db pathid cookie_id
  have hsnd := map_accepted_accept hcheck
  -- but for the checks, which need the others
  have hbase : (⟨s.db.accept hmac pathid cookie_id, []⟩ : CookieUse).Ok hmac secrets paths := by
    have honce := h.once.accept hcheck (h.oneSecret hinj hpathid hcheck)
    rcases accept_cases hcheck with ⟨heq, hdb⟩ | ⟨-, heq, hdb⟩
    · rw [hdb] at honce ⊢
      refine ⟨honce, fun c hc => ?_, fun c hc => ?_, h.secrets, fun e he => ?_, nofun⟩
      · rcases List.mem_cons.1 hc with rfl | hc
        · exact List.mem_cons_self
        · exact List.mem_cons_of_mem _ (h.cur_accepted c hc)
      · exact List.mem_cons_of_mem _ (h.old_accepted c hc)
      · rcases List.mem_cons.1 he with rfl | he
        · exact ⟨pathid, hpathid, heq⟩
        · exact h.made e he
    · rw [hdb] at honce ⊢
      refine ⟨honce, fun c hc => ?_, fun c hc => ?_, h.secrets, fun e he => ?_, nofun⟩
      · exact List.mem_cons_of_mem _ (h.cur_accepted c hc)
      · rcases List.mem_cons.1 hc with rfl | hc
        · exact List.mem_cons_self
        · exact List.mem_cons_of_mem _ (h.old_accepted c hc)
      · rcases List.mem_cons.1 he with rfl | he
        · exact ⟨pathid, hpathid, heq⟩
        · exact h.made e he
  refine ⟨hbase.once, hbase.cur_accepted, hbase.old_accepted, hbase.secrets, hbase.made, ?_⟩
  intro e he
  obtain ⟨he, hne⟩ := List.mem_filter.1 he
  obtain ⟨hpath, hbefore⟩ := h.checked e he
  obtain ⟨hmade, hnew⟩ := (h.check_iff hinj hpath).1 hbefore
  refine ⟨hpath, (hbase.check_iff hinj hpath).2 ⟨?_, ?_⟩⟩
  · show e.2 = cpu hmac e.1 (s.db.accept hmac pathid cookie_id).cur_secret
      ∨ e.2 = cpu hmac e.1 (s.db.accept hmac pathid cookie_id).old_secret
    rw [hframe.1, hframe.2.1]
    exact hmade
  · show e.2 ∉ (s.db.accept hmac pathid cookie_id).accepted.map Prod.snd
    rw [hsnd, List.mem_cons, not_or]
    exact ⟨of_decide_eq_true hne, hnew⟩

theorem Ok.rekey (h : s.Ok hmac secrets paths) (hsecret : secret ∈ secrets)
    (hfresh : secret ∉ s.db.secrets) : (s.step hmac (.rekey secret)).Ok hmac secrets paths where
  once := h.once.rekey hfresh
  cur_accepted _ hmem := nomatch hmem
  old_accepted := h.cur_accepted
  secrets secret' hmem := by
    rcases List.mem_cons.1 hmem with rfl | hmem
    · exact hsecret
    · exact h.secrets secret' hmem
  made := h.made
  checked _ he := nomatch he

/-- **A step** keeps the invariant. -/
theorem ok_step (hinj : Injective hmac secrets paths) (s : CookieUse) (ev : CookieEvent)
    (h : s.Ok hmac secrets paths) (hallowed : Allowed secrets paths s ev) :
    (s.step hmac ev).Ok hmac secrets paths := by
  cases ev with
  | generate pathid => exact h
  | check pathid cookie_id => exact h.check hallowed
  | accept pathid cookie_id => exact h.accept hinj hallowed
  | rekey secret => exact h.rekey hallowed.1 hallowed.2

/-! ### The runs -/

variable {evs : List CookieEvent}

theorem ok_run (h : s.Ok hmac secrets paths) (hinj : Injective hmac secrets paths)
    (hrun : Guarded (step hmac) (Allowed secrets paths) s evs) :
    (run (step hmac) s evs).Ok hmac secrets paths :=
  (hrun.always (ok_step hinj) h).run

/-- The secret was the current one, and has been renewed `n` times since. -/
structure Aged (secret : Datum) (n : ℕ) (db : CookieDb) : Prop where
  drawn : secret ∈ db.secrets
  cur : n = 0 → secret = db.cur_secret
  old : n = 1 → secret = db.old_secret
  ne_cur : 0 < n → secret ≠ db.cur_secret
  ne_old : 1 < n → secret ≠ db.old_secret

theorem Aged.mem_iff {n : ℕ} {db : CookieDb} (h : Aged secret n db) :
    (secret = db.cur_secret ∨ secret = db.old_secret) ↔ n < 2 := by
  constructor
  · intro hmem
    by_contra hn
    rcases hmem with hcur | hold
    · exact h.ne_cur (by omega) hcur
    · exact h.ne_old (by omega) hold
  · intro hn
    rcases Nat.eq_zero_or_pos n with hzero | hpos
    · exact .inl (h.cur hzero)
    · exact .inr (h.old (by omega))

theorem Aged.rekey {n : ℕ} {db : CookieDb} (h : Aged secret n db) {fresh : Datum}
    (hfresh : fresh ∉ db.secrets) : Aged secret (n + 1) (db.rekey fresh) where
  drawn := List.mem_cons_of_mem _ h.drawn
  cur hn := absurd hn (Nat.succ_ne_zero n)
  old hn := h.cur (Nat.succ_injective hn)
  ne_cur _ := by
    rintro rfl
    exact hfresh h.drawn
  ne_old hn := h.ne_cur (Nat.lt_of_succ_lt_succ hn)

/-- **The age of a secret**: its first one plus the renewals of the run. -/
theorem aged_run {n : ℕ} (h : Aged secret n s.db)
    (hrun : Guarded (step hmac) (Allowed secrets paths) s evs) :
    Aged secret (n + evs.countP CookieEvent.isRekey) (run (step hmac) s evs).db := by
  induction evs generalizing s n with
  | nil => exact h
  | cons ev evs ih =>
    rw [run_cons, List.countP_cons]
    cases ev with
    | generate pathid => exact ih h hrun.2
    | check pathid cookie_id =>
      refine ih ?_ hrun.2
      rw [db_check]
      exact h
    | accept pathid cookie_id =>
      obtain ⟨hcur, hold, hsecrets⟩ : _ ∧ _ ∧ _ := accept_frame s.db pathid cookie_id
      refine ih ⟨?_, ?_, ?_, ?_, ?_⟩ hrun.2
      · exact hsecrets ▸ h.drawn
      · exact fun hn => (h.cur hn).trans hcur.symm
      · exact fun hn => (h.old hn).trans hold.symm
      · exact fun hn heq => h.ne_cur hn (heq.trans hcur)
      · exact fun hn heq => h.ne_old hn (heq.trans hold)
    | rekey fresh =>
      have haged := ih (h.rekey hrun.1.2) hrun.2
      rwa [Nat.add_right_comm] at haged

/-- What has been accepted is what an event of the run accepted. -/
theorem mem_accepted_run (h : s.Ok hmac secrets paths) (hinj : Injective hmac secrets paths)
    (hrun : Guarded (step hmac) (Allowed secrets paths) s evs) :
    cookie_id ∈ (run (step hmac) s evs).db.accepted.map Prod.snd
      ↔ cookie_id ∈ s.db.accepted.map Prod.snd ∨ ∃ pathid, .accept pathid cookie_id ∈ evs := by
  induction evs generalizing s with
  | nil => simp
  | cons ev evs ih =>
    rw [run_cons, ih (ok_step hinj s ev h hrun.1) hrun.2]
    cases ev with
    | generate pathid => simp [step]
    | check pathid cookie_id' =>
      rw [db_check]
      simp
    | accept pathid cookie_id' =>
      have hsnd := map_accepted_accept (h.checked _ hrun.1).2
      show cookie_id ∈ (s.db.accept hmac pathid cookie_id').accepted.map Prod.snd ∨ _ ↔ _
      rw [hsnd, List.mem_cons]
      constructor
      · rintro ((rfl | hmem) | ⟨pathid', hmem⟩)
        · exact .inr ⟨pathid, List.mem_cons_self⟩
        · exact .inl hmem
        · exact .inr ⟨pathid', List.mem_cons_of_mem _ hmem⟩
      · rintro (hmem | ⟨pathid', hmem⟩)
        · exact .inl (.inr hmem)
        · rcases List.mem_cons.1 hmem with heq | hmem
          · cases heq
            exact .inl (.inl rfl)
          · exact .inr ⟨pathid', hmem⟩
    | rekey secret => simp [step, CookieDb.rekey]

/-- A cookie of the path which was generated when the secret was the current one. -/
theorem check_generated (h : s.Ok hmac secrets paths) (hinj : Injective hmac secrets paths)
    {n : ℕ} (haged : Aged secret n s.db) (hpathid : pathid ∈ paths) :
    s.db.check hmac pathid (cpu hmac pathid secret) = true
      ↔ cpu hmac pathid secret ∉ s.db.accepted.map Prod.snd ∧ n < 2 := by
  have hsecret : secret ∈ secrets := h.secrets _ haged.drawn
  rw [h.check_iff hinj hpathid, and_comm, ← haged.mem_iff]
  refine and_congr_right fun _ => or_congr ?_ ?_
  · constructor
    · exact fun heq => (hinj.eq hsecret h.cur_mem hpathid hpathid heq).1
    · rintro rfl
      rfl
  · constructor
    · exact fun heq => (hinj.eq hsecret h.old_mem hpathid hpathid heq).1
    · rintro rfl
      rfl

theorem check_other (h : s.Ok hmac secrets paths) (hinj : Injective hmac secrets paths)
    (hsecret : secret ∈ secrets) (hpathid : pathid ∈ paths) {pathid' : Datum}
    (hpathid' : pathid' ∈ paths) (hne : pathid' ≠ pathid) :
    s.db.check hmac pathid' (cpu hmac pathid secret) = false := by
  rw [← Bool.not_eq_true, h.check_iff hinj hpathid']
  rintro ⟨heq | heq, -⟩
  · exact hne (hinj.eq hsecret h.cur_mem hpathid hpathid' heq).2.symm
  · exact hne (hinj.eq hsecret h.old_mem hpathid hpathid' heq).2.symm

/-- **Cookies are used once.**  In any run, a cookie which was generated checks for its path until
it is accepted or the second renewal comes, and for no other path; one which was accepted checks
no more; and an acceptance always finds it absent. -/
theorem cookie_once (hmac : Datum → Datum → CookieId) (secrets paths : Set Datum)
    (hinj : Injective hmac secrets paths) (secret : Datum) (hsecret : secret ∈ secrets)
    (evs : List CookieEvent)
    (hrun : Guarded (step hmac) (Allowed secrets paths) (start secret) evs) :
    (∀ before pathid after, evs = before ++ .generate pathid :: after →
      (((run (step hmac) (start secret) evs).db.check hmac pathid
          ((run (step hmac) (start secret) before).db.generate hmac pathid) = true
        ↔ (∀ pathid', .accept pathid'
            ((run (step hmac) (start secret) before).db.generate hmac pathid) ∉ evs)
          ∧ after.countP CookieEvent.isRekey < 2)
      ∧ ∀ pathid' ∈ paths, pathid' ≠ pathid →
        (run (step hmac) (start secret) evs).db.check hmac pathid'
          ((run (step hmac) (start secret) before).db.generate hmac pathid) = false))
    ∧ (∀ pathid cookie_id, .accept pathid cookie_id ∈ evs → ∀ pathid' ∈ paths,
      (run (step hmac) (start secret) evs).db.check hmac pathid' cookie_id = false)
    ∧ ∀ before pathid cookie_id after, evs = before ++ .accept pathid cookie_id :: after →
      (run (step hmac) (start secret) before).db.acceptSucceed hmac pathid cookie_id = true := by
  have hstart : (start secret).Ok hmac secrets paths := ok_start hsecret
  have hend := ok_run hstart hinj hrun
  have hmem (cookie_id : CookieId) : cookie_id ∈ _ ↔ _ := mem_accepted_run hstart hinj hrun
  refine ⟨?_, ?_, ?_⟩
  · rintro before pathid after heq
    rw [heq, guarded_append] at hrun
    obtain ⟨hbefore, hallowed, hafter⟩ := hrun
    have hok := ok_run hstart hinj hbefore
    set q := run (step hmac) (start secret) before with hq
    -- what follows the generation ages its secret by the rekeyings
    have haged : Aged q.db.cur_secret 0 q.db :=
      ⟨hok.once.cur_drawn, fun _ => rfl, nofun, fun h => absurd h (Nat.lt_irrefl 0), nofun⟩
    have hfinal := aged_run haged hafter
    rw [Nat.zero_add] at hfinal
    have hqevs : run (step hmac) (start secret) evs = run (step hmac) q after := by
      rw [heq, run_append, run_cons]
      rfl
    rw [← hqevs] at hfinal
    refine ⟨?_, fun pathid' hpathid' hne =>
      check_other hend hinj hok.cur_mem hallowed hpathid' hne⟩
    rw [CookieDb.generate, check_generated hend hinj hfinal hallowed, hmem]
    refine and_congr_left fun _ => ?_
    rw [not_or, not_exists]
    exact and_iff_right (fun h => nomatch h)
  · intro pathid cookie_id haccept pathid' hpathid'
    rw [← Bool.not_eq_true, hend.check_iff hinj hpathid']
    rintro ⟨-, hnew⟩
    exact hnew ((hmem cookie_id).2 (.inr ⟨pathid, haccept⟩))
  · rintro before pathid cookie_id after rfl
    obtain ⟨hbefore, hallowed, -⟩ := guarded_append.1 hrun
    exact ((ok_run hstart hinj hbefore).checked _ hallowed).2

end CookieUse

namespace CookieUse

/-- A key in front of the data, in the place of the MAC. -/
def keyed (secret pathid : Datum) : CookieId :=
  ⟨(secret ++ pathid ++ List.replicate 20 0).take 20, by
    rw [List.length_take, List.length_append, List.length_replicate]
    omega⟩

theorem injective_keyed : Injective keyed {[1], [2]} {[7]} := by
  rintro ⟨secret, pathid⟩ ⟨hsecret, rfl⟩ ⟨secret', pathid'⟩ ⟨hsecret', rfl⟩ heq
  rcases hsecret with rfl | rfl <;> rcases hsecret' with rfl | rfl
  · rfl
  · exact absurd (show keyed [1] [7] = keyed [2] [7] from heq) (by decide)
  · exact absurd (show keyed [2] [7] = keyed [1] [7] from heq) (by decide)
  · rfl

/-- A cookie which is accepted checks no more, not even after the renewal. -/
theorem cookie_once_renewed : (run (step keyed) (start [1])
    [.generate [7], .check [7] (keyed [1] [7]), .accept [7] (keyed [1] [7]), .rekey [2]]).db.check
      keyed [7] (keyed [1] [7]) = false :=
  (cookie_once keyed {[1], [2]} {[7]} injective_keyed [1] (.inl rfl)
    [.generate [7], .check [7] (keyed [1] [7]), .accept [7] (keyed [1] [7]), .rekey [2]]
    ⟨rfl, rfl, show ([7], keyed [1] [7]) ∈ [([7], keyed [1] [7])] from List.mem_cons_self,
      ⟨.inr rfl, by decide⟩, trivial⟩).2.1 [7] (keyed [1] [7])
    (List.mem_cons_of_mem _ (List.mem_cons_of_mem _ List.mem_cons_self)) [7] rfl

end CookieUse

end Neoip
