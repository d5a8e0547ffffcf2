/-
Neoip/Cookie.lean

The cookies of a responder: `cookie_db_t`.

A cookie is the MAC of a path under the current secret.  When the secret is
renewed, the one before is kept, with the cookies which have been accepted
under it, so that a cookie is good until the second renewal.

The last two fields of `CookieDb` are not in the source: they are the secrets
which have been drawn, and the cookies which have been accepted, with the
secret of each.

Main result: when no secret is drawn twice, and a cookie which has been
accepted is not the one of a path under another secret, no cookie is accepted
twice (`Once.accept`).
-/
import Neoip.Bitfield
import Mathlib.Data.List.Nodup

namespace Neoip

/-- `cookie_id_t`: a `gen_id_t` on 20 bytes, as many as the MAC `sha1/hmac/20` has. -/
abbrev CookieId := { buffer : Datum // buffer.length = 20 }

/-- The secrets of `cookie_db_t`, with what was accepted under each. -/
structure CookieDb where
  cur_secret : Datum
  cur_accepted_db : List CookieId
  old_secret : Datum
  old_accepted_db : List CookieId
  secrets : List Datum
  accepted : List (Datum × CookieId)
deriving DecidableEq

namespace CookieDb

/-- The first secret is the old one too. -/
def ctor (secret : Datum) : CookieDb := ⟨secret, [], secret, [], [secret], []⟩

/-- The expiration of `rekey_timeout`. -/
def rekey (secret : Datum) (db : CookieDb) : CookieDb :=
  { db with
    old_secret := db.cur_secret
    old_accepted_db := db.cur_accepted_db
    cur_secret := secret
    cur_accepted_db := []
    secrets := secret :: db.secrets }

-- `sha1/hmac/20` with a key, of some data
variable (hmac : Datum → Datum → CookieId)

def cpu (pathid secret : Datum) : CookieId := hmac secret pathid

def generate (pathid : Datum) (db : CookieDb) : CookieId := cpu hmac pathid db.cur_secret

def check (pathid : Datum) (cookie_id : CookieId) (db : CookieDb) : Bool :=
  if cookie_id = cpu hmac pathid db.cur_secret then cookie_id ∉ db.cur_accepted_db
  else if cookie_id = cpu hmac pathid db.old_secret then cookie_id ∉ db.old_accepted_db
  else false

def accept (pathid : Datum) (cookie_id : CookieId) (db : CookieDb) : CookieDb :=
  if cookie_id = cpu hmac pathid db.cur_secret then
    { db with
      cur_accepted_db := cookie_id :: db.cur_accepted_db
      accepted := (db.cur_secret, cookie_id) :: db.accepted }
  else if cookie_id = cpu hmac pathid db.old_secret then
    { db with
      old_accepted_db := cookie_id :: db.old_accepted_db
      accepted := (db.old_secret, cookie_id) :: db.accepted }
  else db

/-- The cookie has not been accepted under another secret than the one it is checked with. -/
def OneSecret (pathid : Datum) (cookie_id : CookieId) (db : CookieDb) : Prop :=
  ∀ e ∈ db.accepted, e.2 = cookie_id →
    e.1 = if cookie_id = cpu hmac pathid db.cur_secret then db.cur_secret else db.old_secret

instance (pathid : Datum) (cookie_id : CookieId) (db : CookieDb) :
    Decidable (OneSecret hmac pathid cookie_id db) :=
  inferInstanceAs (Decidable (∀ e ∈ db.accepted, _))

/-- No cookie was accepted twice, and those which were are known as long as their secret is. -/
structure Once (db : CookieDb) : Prop where
  nodup : (db.accepted.map Prod.snd).Nodup
  cur : ∀ e ∈ db.accepted, e.1 = db.cur_secret → e.2 ∈ db.cur_accepted_db
  old : ∀ e ∈ db.accepted, e.1 ≠ db.cur_secret → e.1 = db.old_secret → e.2 ∈ db.old_accepted_db
  drawn : ∀ e ∈ db.accepted, e.1 ∈ db.secrets
  cur_drawn : db.cur_secret ∈ db.secrets
  old_drawn : db.old_secret ∈ db.secrets

variable {hmac} {db : CookieDb} {pathid : Datum} {cookie_id : CookieId}

theorem once_ctor (secret : Datum) : (ctor secret).Once where
  nodup := List.nodup_nil
  cur _ he := nomatch he
  old _ he := nomatch he
  drawn _ he := nomatch he
  cur_drawn := List.mem_cons_self
  old_drawn := List.mem_cons_self

theorem Once.rekey (h : db.Once) {secret : Datum} (hfresh : secret ∉ db.secrets) :
    (db.rekey secret).Once where
  nodup := h.nodup
  cur e he heq := by
    have heq : e.1 = secret := heq
    exact absurd (heq ▸ h.drawn e he) hfresh
  old e he _ heq := h.cur e he heq
  drawn e he := List.mem_cons_of_mem _ (h.drawn e he)
  cur_drawn := List.mem_cons_self
  old_drawn := List.mem_cons_of_mem _ h.cur_drawn

/-- A cookie which is accepted was not before. -/
theorem Once.not_mem_accepted (h : db.Once) (hcheck : db.check hmac pathid cookie_id = true)
    (hone : db.OneSecret hmac pathid cookie_id) : cookie_id ∉ db.accepted.map Prod.snd := by
  intro hmem
  obtain ⟨e, he, heq⟩ := List.mem_map.1 hmem
  have hsecret := hone e he heq
  rw [check] at hcheck
  by_cases hcur : cookie_id = cpu hmac pathid db.cur_secret
  · rw [if_pos hcur] at hcheck hsecret
    exact of_decide_eq_true hcheck (heq ▸ h.cur e he hsecret)
  · rw [if_neg hcur] at hcheck hsecret
    by_cases hold : cookie_id = cpu hmac pathid db.old_secret
    · rw [if_pos hold] at hcheck
      have hne : e.1 ≠ db.cur_secret := by
        rw [hsecret]
        intro h
        exact hcur (h ▸ hold)
      exact of_decide_eq_true hcheck (heq ▸ h.old e he hne hsecret)
    · rw [if_neg hold] at hcheck
      nomatch hcheck

/-- A cookie which is checked with success is the one of its path under one of the secrets. -/
theorem cases_of_check (hcheck : db.check hmac pathid cookie_id = true) :
    cookie_id = cpu hmac pathid db.cur_secret
      ∨ cookie_id ≠ cpu hmac pathid db.cur_secret ∧ cookie_id = cpu hmac pathid db.old_secret := by
  rw [check] at hcheck
  split_ifs at hcheck with hcur hold
  · exact .inl hcur
  · exact .inr ⟨hcur, hold⟩

/-- The acceptance of such a cookie: it is added to the set of the secret it is of. -/
theorem accept_cases (hcheck : db.check hmac pathid cookie_id = true) :
    (cookie_id = cpu hmac pathid db.cur_secret ∧ db.accept hmac pathid cookie_id =
        { db with
          cur_accepted_db := cookie_id :: db.cur_accepted_db
          accepted := (db.cur_secret, cookie_id) :: db.accepted })
      ∨ cookie_id ≠ cpu hmac pathid db.cur_secret ∧ cookie_id = cpu hmac pathid db.old_secret
        ∧ db.accept hmac pathid cookie_id =
          { db with
            old_accepted_db := cookie_id :: db.old_accepted_db
            accepted := (db.old_secret, cookie_id) :: db.accepted } := by
  rcases cases_of_check hcheck with hcur | ⟨hcur, hold⟩
  · exact .inl ⟨hcur, if_pos hcur⟩
  · exact .inr ⟨hcur, hold, (if_neg hcur).trans (if_pos hold)⟩

theorem map_accepted_accept (hcheck : db.check hmac pathid cookie_id = true) :
    (db.accept hmac pathid cookie_id).accepted.map Prod.snd
      = cookie_id :: db.accepted.map Prod.snd := by
  rcases accept_cases hcheck with ⟨-, hdb⟩ | ⟨-, -, hdb⟩
  · rw [hdb, List.map_cons]
  · rw [hdb, List.map_cons]

theorem Once.accept (h : db.Once) (hcheck : db.check hmac pathid cookie_id = true)
    (hone : db.OneSecret hmac pathid cookie_id) : (db.accept hmac pathid cookie_id).Once := by
  have hnodup : ((db.accept hmac pathid cookie_id).accepted.map Prod.snd).Nodup := by
    rw [map_accepted_accept hcheck, List.nodup_cons]
    exact ⟨h.not_mem_accepted hcheck hone, h.nodup⟩
  rcases accept_cases hcheck with ⟨-, hdb⟩ | ⟨hcur, hold, hdb⟩
  · rw [hdb] at hnodup ⊢
    refine ⟨hnodup, ?_, ?_, ?_, h.cur_drawn, h.old_drawn⟩
    · intro e he heq
      rcases List.mem_cons.1 he with rfl | he
      · exact List.mem_cons_self
      · exact List.mem_cons_of_mem _ (h.cur e he heq)
    · intro e he hne heq
      rcases List.mem_cons.1 he with rfl | he
      · exact absurd rfl hne
      · exact h.old e he hne heq
    · intro e he
      rcases List.mem_cons.1 he with rfl | he
      · exact h.cur_drawn
      · exact h.drawn e he
  · rw [hdb] at hnodup ⊢
    refine ⟨hnodup, ?_, ?_, ?_, h.cur_drawn, h.old_drawn⟩
    · intro e he heq
      rcases List.mem_cons.1 he with rfl | he
      · -- the two secrets are not the same, as the cookie is not the one under the current one
        exact absurd (show db.old_secret = db.cur_secret from heq) fun h => hcur (h ▸ hold)
      · exact h.cur e he heq
    · intro e he hne heq
      rcases List.mem_cons.1 he with rfl | he
      · exact List.mem_cons_self
      · exact List.mem_cons_of_mem _ (h.old e he hne heq)
    · intro e he
      rcases List.mem_cons.1 he with rfl | he
      · exact h.old_drawn
      · exact h.drawn e he

end CookieDb

end Neoip
