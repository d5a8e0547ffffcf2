/-
Neoip/PktfragCovers.lean

The fragments of one packet, and the datagram in which they are put together.

`Covers` is what a list of fragments of a packet is, whatever the lengths of
the fragments: one after the other they are the packet, each has data, and all
but the last one say that there are more.

Main results: `pkt_from_upper` gives such fragments (`covers_fragment`), and a
pending datagram which has been given some of them, in any order and any number
of times, is complete exactly when it has them all, and is then the packet
(`Holds.addFragment`).
-/
import Neoip.Pktfrag

namespace Neoip

/-- A fragment, without the sequence number of its packet. -/
structure Fragment where
  offset : ℕ
  more_bit : Bool
  data : Datum

/-- The fragment as it is sent, where the offset is a `uint32_t`. -/
def Fragment.wire (seqnb : ℕ) (f : Fragment) : Datum :=
  Pktfrag.buildFragment seqnb (f.offset % 2 ^ 32) f.more_bit f.data

/-- The fragments are those of the packet, from the offset on. -/
inductive Covers : ℕ → List Fragment → Datum → Prop
  | last {offset : ℕ} {data : Datum} (hne : data ≠ []) : Covers offset [⟨offset, false, data⟩] data
  | more {offset : ℕ} {data : Datum} {frags : List Fragment} {pkt : Datum} (hne : data ≠ [])
      (htail : Covers (offset + data.length) frags pkt) :
      Covers offset (⟨offset, true, data⟩ :: frags) (data ++ pkt)

namespace Covers

variable {offset : ℕ} {frags : List Fragment} {pkt : Datum} {f g : Fragment}

theorem le_offset (h : Covers offset frags pkt) : ∀ f ∈ frags, offset ≤ f.offset := by
  induction h with
  | last hne => simp
  | more hne htail ih =>
    intro f hf
    rcases List.mem_cons.1 hf with rfl | hf
    · exact le_rfl
    · exact (Nat.le_add_right _ _).trans (ih f hf)

/-- The fragments are in the order of their offsets. -/
theorem pairwise (h : Covers offset frags pkt) :
    frags.Pairwise fun f g => f.offset < g.offset := by
  induction h with
  | last hne => exact List.pairwise_singleton _ _
  | more hne htail ih =>
    refine List.pairwise_cons.2 ⟨fun g hg => ?_, ih⟩
    have hpos := List.length_pos_of_ne_nil hne
    exact (Nat.lt_add_of_pos_right hpos).trans_le (htail.le_offset g hg)

theorem eq_of_offset (h : Covers offset frags pkt) (hf : f ∈ frags) (hg : g ∈ frags)
    (heq : f.offset = g.offset) : f = g := by
  have hinj : (frags.map Fragment.offset).Nodup :=
    List.nodup_iff_pairwise_ne.2 (List.pairwise_map.2 (h.pairwise.imp fun hlt => hlt.ne))
  exact List.inj_on_of_nodup_map hinj hf hg heq

theorem flatMap_data (h : Covers offset frags pkt) : frags.flatMap Fragment.data = pkt := by
  induction h with
  | last hne => simp
  | more hne htail ih => rw [List.flatMap_cons, ih]

theorem length_pos (h : Covers offset frags pkt) : 0 < pkt.length := by
  cases h with
  | last hne => exact List.length_pos_of_ne_nil hne
  | more hne htail =>
    rw [List.length_append]
    exact Nat.add_pos_left (List.length_pos_of_ne_nil hne) _

/-- There are not more fragments than bytes. -/
theorem length_le (h : Covers offset frags pkt) : frags.length ≤ pkt.length := by
  induction h with
  | last hne => exact List.length_pos_of_ne_nil hne
  | more hne htail ih =>
    have hpos := List.length_pos_of_ne_nil hne
    rw [List.length_cons, List.length_append]
    omega

/-- The last fragment says where the packet ends. -/
theorem add_length_of_last (h : Covers offset frags pkt) (hf : f ∈ frags)
    (hmore : f.more_bit = false) : f.offset + f.data.length = offset + pkt.length := by
  induction h with
  | last hne =>
    rw [List.mem_singleton.1 hf]
  | more hne htail ih =>
    rcases List.mem_cons.1 hf with rfl | hf
    · cases hmore
    · rw [ih hf, List.length_append, Nat.add_assoc]

theorem eq_of_last (h : Covers offset frags pkt) (hf : f ∈ frags) (hg : g ∈ frags)
    (hf' : f.more_bit = false) (hg' : g.more_bit = false) : f = g := by
  induction h with
  | last hne => rw [List.mem_singleton.1 hf, List.mem_singleton.1 hg]
  | more hne htail ih =>
    rcases List.mem_cons.1 hf with rfl | hf
    · cases hf'
    rcases List.mem_cons.1 hg with rfl | hg
    · cases hg'
    exact ih hf hg

theorem exists_last (h : Covers offset frags pkt) : ∃ f ∈ frags, f.more_bit = false := by
  induction h with
  | last hne => exact ⟨_, List.mem_singleton_self _, rfl⟩
  | more hne htail ih =>
    obtain ⟨f, hf, hmore⟩ := ih
    exact ⟨f, List.mem_cons_of_mem _ hf, hmore⟩

end Covers

/-! ### Fragmentation -/

namespace Pktfrag

/-- The offset of the last fragment of a packet. -/
def lastOffset (payl_mtu base len : ℕ) : ℕ := (len - payl_mtu + base - 1) / base * base

variable {payl_mtu base len seqnb : ℕ} {pkt : Datum}

theorem lastOffset_of_le (hbase : 0 < base) (hlen : len ≤ payl_mtu) :
    lastOffset payl_mtu base len = 0 := by
  rw [lastOffset, Nat.sub_eq_zero_of_le hlen, Nat.zero_add, Nat.div_eq_of_lt (by omega),
    Nat.zero_mul]

theorem lastOffset_of_lt (hbase : 0 < base) (hlen : payl_mtu < len) :
    lastOffset payl_mtu base len = base + lastOffset payl_mtu base (len - base) := by
  have hsub : len - payl_mtu + base - 1 = len - payl_mtu - 1 + base := by omega
  rw [lastOffset, lastOffset, hsub, Nat.add_div_right _ hbase, Nat.succ_mul, Nat.add_comm]
  congr 1
  by_cases hle : len - base ≤ payl_mtu
  · -- the next fragment is the last one
    rw [Nat.div_eq_of_lt (by omega), Nat.sub_eq_zero_of_le hle, Nat.zero_add,
      Nat.div_eq_of_lt (by omega)]
  · have hstep : len - payl_mtu - 1 = len - base - payl_mtu + base - 1 := by omega
    rw [hstep]

/-- The fragments of a packet cover it, none has more data than fits, and none comes after the
one which is at `lastOffset`. -/
theorem covers_fragment (hbase : 0 < base) (hle : base ≤ payl_mtu)
    (hconv : toSizeT (fragBaseLen payl_mtu) = base) (rounds offset : ℕ) (hne : pkt ≠ [])
    (hrounds : pkt.length ≤ rounds) :
    ∃ frags, fragment payl_mtu seqnb rounds (offset % 2 ^ 32) pkt =
        some (frags.map (Fragment.wire seqnb)) ∧ Covers offset frags pkt ∧
      ∀ f ∈ frags, f.data.length ≤ payl_mtu ∧
        f.offset ≤ offset + lastOffset payl_mtu base pkt.length ∧
        (f.more_bit = false → f.offset = offset + lastOffset payl_mtu base pkt.length) := by
  induction rounds generalizing offset pkt with
  | zero => exact absurd (List.length_eq_zero_iff.1 (Nat.le_zero.1 hrounds)) hne
  | succ rounds ih =>
    obtain ⟨b, tail, rfl⟩ := List.exists_cons_of_ne_nil hne
    rw [fragment]
    swap
    · exact hne
    by_cases hmore : payl_mtu < (b :: tail).length
    · -- a fragment of the base length, and there are more
      have hlt : base < (b :: tail).length := hle.trans_lt hmore
      have hdrop : ((b :: tail).drop base).length = (b :: tail).length - base :=
        List.length_drop
      have hne' : (b :: tail).drop base ≠ [] := by
        intro hnil
        rw [hnil, List.length_nil] at hdrop
        omega
      rw [decide_eq_true hmore, if_pos rfl, hconv, if_neg (by omega), Nat.mod_add_mod]
      obtain ⟨frags, hfrags, hcov, hbound⟩ := ih (offset + base) hne' (by omega)
      have hlen : ((b :: tail).take base).length = base :=
        List.length_take_of_le hlt.le
      have hlast : offset + lastOffset payl_mtu base (b :: tail).length =
          offset + base + lastOffset payl_mtu base ((b :: tail).drop base).length := by
        rw [hdrop, lastOffset_of_lt hbase hmore, Nat.add_assoc]
      refine ⟨⟨offset, true, (b :: tail).take base⟩ :: frags, ?_, ?_, ?_⟩
      · rw [hfrags]
        rfl
      · have hne'' : (b :: tail).take base ≠ [] := by
          intro hnil
          rw [hnil, List.length_nil] at hlen
          omega
        rw [← hlen] at hcov
        have hmore' := Covers.more hne'' hcov
        rwa [hlen, List.take_append_drop] at hmore'
      · intro f hf
        rw [hlast]
        rcases List.mem_cons.1 hf with rfl | hf
        · exact ⟨hlen.le.trans hle, by rw [Nat.add_assoc]; exact Nat.le_add_right _ _,
            fun h => by cases h⟩
        · exact hbound f hf
    · -- the last fragment
      rw [decide_eq_false hmore, if_neg Bool.false_ne_true, if_neg (lt_irrefl _),
        List.drop_length, List.take_length]
      refine ⟨[⟨offset, false, b :: tail⟩], ?_, Covers.last hne, ?_⟩
      · cases rounds <;> rfl
      · intro f hf
        rw [List.mem_singleton.1 hf, lastOffset_of_le hbase (not_lt.1 hmore)]
        exact ⟨not_lt.1 hmore, le_rfl, fun _ => rfl⟩

end Pktfrag

/-! ### A datagram which is put together -/

/-- The pending datagram has the fragment. -/
def PendingDgram.Has (d : PendingDgram) (f : Fragment) : Prop := (f.offset, f.data) ∈ d.fragment_db

/-- The pending datagram has some of the fragments, in their order, and knows the length of the
packet if it has the last one. -/
structure Holds (frags : List Fragment) (pkt : Datum) (d : PendingDgram) : Prop where
  sorted : d.fragment_db.Pairwise fun a b => a.1 < b.1
  subset : ∀ e ∈ d.fragment_db, ∃ f ∈ frags, (f.offset, f.data) = e
  known : ∀ f ∈ frags, f.more_bit = false → d.Has f → d.full_dgram_len = pkt.length
  unknown : (∀ f ∈ frags, f.more_bit = false → ¬d.Has f) → d.full_dgram_len = 0

namespace Holds

variable {frags frags' : List Fragment} {pkt rest : Datum} {d : PendingDgram} {f g : Fragment}
  {offset : ℕ}

theorem ctor : Holds frags pkt PendingDgram.ctor where
  sorted := List.Pairwise.nil
  subset := fun _ h => absurd h List.not_mem_nil
  known := fun _ _ _ h => absurd h List.not_mem_nil
  unknown := fun _ => rfl

theorem keyed (h : Holds frags pkt d) : Omap.Keyed d.fragment_db :=
  List.nodup_iff_pairwise_ne.2 (List.pairwise_map.2 (h.sorted.imp fun hlt => hlt.ne))

/-- What is found at the offset of a fragment is its data. -/
theorem find_eq (h : Holds frags pkt d) (hcov : Covers 0 frags pkt) (hf : f ∈ frags) :
    Omap.find f.offset d.fragment_db = none ∧ ¬d.Has f ∨
      Omap.find f.offset d.fragment_db = some f.data ∧ d.Has f := by
  cases hfind : Omap.find f.offset d.fragment_db with
  | none => exact Or.inl ⟨rfl, Omap.find_eq_none.1 hfind f.data⟩
  | some data =>
    have hmem := Omap.mem_of_find hfind
    obtain ⟨g, hg, heq⟩ := h.subset _ hmem
    obtain ⟨hoffset, rfl⟩ := Prod.mk.inj heq
    obtain rfl := hcov.eq_of_offset hg hf hoffset
    exact Or.inr ⟨rfl, hmem⟩

/-- The scan from a fragment on looks for all the fragments from there. -/
theorem scan_eq (h : Holds frags pkt d) (hcov : Covers 0 frags pkt)
    (hlt : ∀ f ∈ frags, f.offset < 2 ^ 32) (hlen : d.full_dgram_len = pkt.length)
    (hrest : Covers offset frags' rest) (hsub : frags' ⊆ frags)
    (hend : offset + rest.length = pkt.length) {rounds : ℕ} (hrounds : frags'.length ≤ rounds) :
    ∃ b, d.scan rounds offset = some b ∧ (b = true ↔ ∀ f ∈ frags', d.Has f) := by
  induction hrest generalizing rounds with
  | @last offset data hne =>
    obtain ⟨rounds, rfl⟩ : ∃ n, rounds = n + 1 := ⟨rounds - 1, by simp at hrounds; omega⟩
    have hpos := List.length_pos_of_ne_nil hne
    have hmem : (⟨offset, false, data⟩ : Fragment) ∈ frags := hsub (List.mem_singleton_self _)
    rw [PendingDgram.scan, hlen, if_neg (by omega), Nat.mod_eq_of_lt (hlt _ hmem)]
    rcases h.find_eq hcov hmem with ⟨hfind, hhas⟩ | ⟨hfind, hhas⟩
    · exact ⟨false, by rw [hfind], by simpa using hhas⟩
    · refine ⟨true, ?_, by simpa using hhas⟩
      rw [hfind]
      exact PendingDgram.scan_of_le (hlen.trans_le hend.ge) rounds
  | @more offset data frags' rest hne htail ih =>
    obtain ⟨rounds, rfl⟩ : ∃ n, rounds = n + 1 := ⟨rounds - 1, by simp at hrounds; omega⟩
    have hpos := List.length_pos_of_ne_nil hne
    have hmem : (⟨offset, true, data⟩ : Fragment) ∈ frags := hsub List.mem_cons_self
    rw [List.length_append] at hend
    rw [PendingDgram.scan, hlen, if_neg (by omega), Nat.mod_eq_of_lt (hlt _ hmem)]
    rcases h.find_eq hcov hmem with ⟨hfind, hhas⟩ | ⟨hfind, hhas⟩
    · exact ⟨false, by rw [hfind], by simp [hhas]⟩
    · obtain ⟨b, hscan, hb⟩ := ih (List.subset_of_cons_subset hsub) (by omega)
        (Nat.le_of_succ_le_succ hrounds)
      refine ⟨b, ?_, by simp [hb, hhas]⟩
      rw [hfind]
      exact hscan

theorem isComplete_eq (h : Holds frags pkt d) (hcov : Covers 0 frags pkt)
    (hlt : ∀ f ∈ frags, f.offset < 2 ^ 32) :
    ∃ b, d.isComplete = some b ∧ (b = true ↔ ∀ f ∈ frags, d.Has f) := by
  obtain ⟨f, hf, hmore⟩ := hcov.exists_last
  rw [PendingDgram.isComplete]
  by_cases hhas : d.Has f
  · have hlen := h.known f hf hmore hhas
    rw [if_neg (by rw [hlen]; exact hcov.length_pos.ne')]
    exact h.scan_eq hcov hlt hlen hcov (fun _ hf => hf) (Nat.zero_add _)
      (by rw [hlen]; exact hcov.length_le)
  · have hlen := h.unknown fun g hg hmore' => by rwa [hcov.eq_of_last hg hf hmore' hmore]
    rw [if_pos hlen]
    exact ⟨false, rfl, by simpa using ⟨f, hf, hhas⟩⟩

/-- A fragment which was not there is linked. -/
theorem link (h : Holds frags pkt d) (hcov : Covers 0 frags pkt) (hf : f ∈ frags)
    (hnew : ¬d.Has f) :
    Holds frags pkt (d.link f.offset f.more_bit f.data) ∧
      ∀ g, (d.link f.offset f.more_bit f.data).Has g ↔ (g.offset, g.data) = (f.offset, f.data) ∨
        d.Has g := by
  have hfind : Omap.find f.offset d.fragment_db = none := by
    rcases h.find_eq hcov hf with ⟨hfind, -⟩ | ⟨-, hhas⟩
    · exact hfind
    · exact absurd hhas hnew
  have hdb : (d.link f.offset f.more_bit f.data).fragment_db =
      Omap.place ltUint32 f.offset f.data d.fragment_db := Omap.insert_of_find hfind
  have hmem : ∀ g, (d.link f.offset f.more_bit f.data).Has g ↔
      (g.offset, g.data) = (f.offset, f.data) ∨ d.Has g := by
    intro g
    rw [PendingDgram.Has, hdb, Omap.mem_place]
    rfl
  refine ⟨⟨?_, ?_, ?_, ?_⟩, hmem⟩
  · rw [hdb]
    exact Omap.pairwise_place h.sorted hfind
  · intro e he
    rw [hdb, Omap.mem_place] at he
    rcases he with rfl | he
    · exact ⟨f, hf, rfl⟩
    · exact h.subset e he
  -- the whole length is known from the last fragment only
  · intro g hg hmore hhas
    by_cases hlast : f.more_bit = false
    · have hend := hcov.add_length_of_last hf hlast
      rw [PendingDgram.link, hlast, if_neg Bool.false_ne_true, hend, Nat.zero_add]
    · have hgf : d.Has g := by
        refine ((hmem g).1 hhas).resolve_left fun heq => ?_
        obtain rfl := hcov.eq_of_offset hg hf (Prod.mk.inj heq).1
        exact hlast hmore
      rw [PendingDgram.link, Bool.eq_true_of_not_eq_false hlast, if_pos rfl]
      exact h.known g hg hmore hgf
  · intro hnone
    have hmore : f.more_bit = true := by
      by_contra hlast
      exact hnone f hf (Bool.eq_false_of_not_eq_true hlast) ((hmem f).2 (Or.inl rfl))
    rw [PendingDgram.link, hmore, if_pos rfl]
    exact h.unknown fun g hg hlast hhas => hnone g hg hlast ((hmem g).2 (Or.inr hhas))

/-- When all the fragments are there, the datagram is the packet. -/
theorem getCompleteDgram (h : Holds frags pkt d) (hcov : Covers 0 frags pkt)
    (hall : ∀ f ∈ frags, d.Has f) : d.getCompleteDgram = pkt := by
  have hsorted : (frags.map fun f => (f.offset, f.data)).Pairwise fun a b => a.1 < b.1 :=
    List.pairwise_map.2 hcov.pairwise
  have hnodup : (frags.map fun f => (f.offset, f.data)).Nodup :=
    List.nodup_iff_pairwise_ne.2 (hsorted.imp fun hlt heq => hlt.ne (congrArg Prod.fst heq))
  have hperm : d.fragment_db.Perm (frags.map fun f => (f.offset, f.data)) := by
    rw [List.perm_ext_iff_of_nodup h.keyed.of_map hnodup]
    intro e
    refine ⟨fun he => List.mem_map.2 (h.subset e he), fun he => ?_⟩
    obtain ⟨f, hf, rfl⟩ := List.mem_map.1 he
    exact hall f hf
  have heq := hperm.eq_of_pairwise (fun a b _ _ hab hba => absurd hab hba.asymm) h.sorted hsorted
  rw [PendingDgram.getCompleteDgram, heq, List.flatMap_map]
  exact hcov.flatMap_data

/-- **Reassembly of one packet**: to add a fragment completes the datagram exactly when it was not
there and all the others were, and what is complete is the packet. -/
theorem addFragment (h : Holds frags pkt d) (hcov : Covers 0 frags pkt)
    (hlt : ∀ f ∈ frags, f.offset < 2 ^ 32) (hf : f ∈ frags) :
    ∃ complete d', d.addFragment f.offset f.more_bit f.data = some (complete, d') ∧
      Holds frags pkt d' ∧ (∀ g ∈ frags, d'.Has g ↔ g = f ∨ d.Has g) ∧
      (complete = true ↔ ¬d.Has f ∧ ∀ g ∈ frags, d'.Has g) ∧
      (complete = true → d'.getCompleteDgram = pkt) := by
  rw [PendingDgram.addFragment]
  rcases h.find_eq hcov hf with ⟨hfind, hnew⟩ | ⟨hfind, hhas⟩
  · obtain ⟨hholds, hmem⟩ := h.link hcov hf hnew
    obtain ⟨complete, hcomplete, hiff⟩ := hholds.isComplete_eq hcov hlt
    refine ⟨complete, _, ?_, hholds, ?_, ?_, ?_⟩
    · rw [hfind]
      dsimp only
      rw [hcomplete, Option.map_some]
    · intro g hg
      rw [hmem g]
      refine or_congr_left ⟨fun heq => ?_, fun heq => by rw [heq]⟩
      exact hcov.eq_of_offset hg hf (Prod.mk.inj heq).1
    · rw [hiff, and_iff_right hnew]
    · intro htrue
      exact hholds.getCompleteDgram hcov (hiff.1 htrue)
  · refine ⟨false, d, ?_, h, ?_, ?_, ?_⟩
    · rw [hfind]
    · intro g _
      refine ⟨Or.inr, ?_⟩
      rintro (rfl | hg)
      · exact hhas
      · exact hg
    · simp [hhas]
    · exact fun hfalse => absurd hfalse Bool.false_ne_true

end Holds

end Neoip
