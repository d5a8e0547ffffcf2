/-
Neoip/IpNetaddr.lean

The network of an IPv4 address, and the cursor which hands out its addresses:
`ip_netaddr_t`.

The netmask shifts the word by its width when the prefix has no bits, which the
language leaves undefined.  What comes out then is a parameter.

The hosts of a network are its addresses without the first and the last one, or
all of them when there is no other.  Networks of two addresses have the first
one as last host of the cursor and the last one as first host, and it never
comes to its end.  A base address which is the broadcast address is the first
host itself.

Main result: `IpNetaddr.enumerates_iff`, for which networks the cursor goes
around the hosts.
-/
import Neoip.BitPrefix

namespace Neoip

open BitPrefix

/-- `ip_addr_t`, null or of version 4. -/
abbrev IpAddr := Option (BitVec 32)

/-- `ip_netaddr_t`, with a base address of version 4. -/
structure IpNetaddr where
  base_addr : BitVec 32
  prefix_len : ℕ
  prefix_len_le : prefix_len ≤ 32
deriving DecidableEq

/-- `x << n`, and what comes out when the language does not say. -/
def shl (undefined x : BitVec 32) (n : ℕ) : BitVec 32 := if n < 32 then x <<< n else undefined

namespace IpNetaddr

variable (undefined : BitVec 32) (net : IpNetaddr)

/-! ### Addresses of the network -/

def getNetmask : BitVec 32 := shl undefined 0xffffffff (32 - net.prefix_len)

def getAnyAddr : BitVec 32 := net.base_addr &&& net.getNetmask undefined

def getBcastAddr : BitVec 32 := net.base_addr ||| ~~~net.getNetmask undefined

/-- `contain`: a null address has another version. -/
def contain : IpAddr → Bool
  | none => false
  | some ip_addr => net.getAnyAddr undefined ≤ ip_addr ∧ ip_addr ≤ net.getBcastAddr undefined

/-! ### The cursor -/

def getFirstAddr : BitVec 32 :=
  let first_addr := net.base_addr
  let first_addr := if first_addr = net.getAnyAddr undefined then first_addr + 1 else first_addr
  if ¬ net.contain undefined (some first_addr) then net.base_addr else first_addr

def getLastAddr : BitVec 32 :=
  let last_addr := net.getBcastAddr undefined - 1
  if ¬ net.contain undefined (some last_addr) then net.getBcastAddr undefined else last_addr

def getNextAddr : IpAddr → BitVec 32
  | none => net.getFirstAddr undefined
  | some cur_ip_addr =>
    if cur_ip_addr = net.getLastAddr undefined then net.getFirstAddr undefined
    else cur_ip_addr + 1

/-- The addresses which are handed out, from the null address on. -/
def handed : ℕ → BitVec 32
  | 0 => net.getNextAddr undefined none
  | n + 1 => net.getNextAddr undefined (some (handed n))

/-! ### Hosts -/

/-- The addresses with the same first bits as the base address. -/
def network : Set (BitVec 32) := {a | Agree net.prefix_len a net.base_addr}

/-- A network or broadcast address: none of the other bits, or all of them. -/
def IsEnd (a : BitVec 32) : Prop :=
  (∀ i, net.prefix_len ≤ i → i < 32 → a.getMsbD i = false) ∨
    ∀ i, net.prefix_len ≤ i → i < 32 → a.getMsbD i = true

def hosts : Set (BitVec 32) :=
  {a ∈ net.network | net.IsEnd a → ∀ b ∈ net.network, net.IsEnd b}

/-- What the queries and the cursor are for. -/
structure Enumerates : Prop where
  contain : ∀ a, net.contain undefined (some a) = true ↔ a ∈ net.network
  mem : ∀ n, net.handed undefined n ∈ net.hosts
  periodic : ∃ period, 0 < period ∧
    ∀ n, net.handed undefined (n + period) = net.handed undefined n
  first_iff : ∀ n, net.handed undefined (n + 1) = net.handed undefined 0 ↔
    ∀ b ∈ net.hosts, b ≤ net.handed undefined n

/-! ### The ends of the network -/

/-- The network address. -/
def low : BitVec 32 := net.base_addr &&& mask 32 net.prefix_len

/-- The broadcast address. -/
def high : BitVec 32 := net.base_addr ||| ~~~mask 32 net.prefix_len

variable {undefined net} {a : BitVec 32}

theorem mem_network_iff : a ∈ net.network ↔ net.low ≤ a ∧ a ≤ net.high :=
  agree_iff_le_and_le net.prefix_len_le

theorem base_addr_mem : net.base_addr ∈ net.network := Agree.refl _ _

theorem low_mem : net.low ∈ net.network := agree_and_mask net.prefix_len_le _

theorem high_mem : net.high ∈ net.network := agree_or_not_mask net.prefix_len_le _

/-- The network has `2 ^ (32 - prefix_len)` addresses. -/
theorem toNat_high : net.high.toNat + 1 = net.low.toNat + 2 ^ (32 - net.prefix_len) := by
  have hpos := Nat.two_pow_pos (32 - net.prefix_len)
  rw [low, high, toNat_and_mask net.prefix_len_le, toNat_or_not_mask net.prefix_len_le]
  omega

theorem isEnd_iff (ha : a ∈ net.network) : net.IsEnd a ↔ a = net.low ∨ a = net.high := by
  have hagree : Agree net.prefix_len a net.base_addr := ha
  have hlow := eq_and_mask_iff (a := a) (b := net.base_addr) net.prefix_len_le
  have hhigh := eq_or_not_mask_iff (a := a) (b := net.base_addr) net.prefix_len_le
  rw [and_iff_right hagree] at hlow hhigh
  exact or_congr hlow.symm hhigh.symm

/-! ### What the code computes -/

/-- The mask is the one of the prefix, unless the shift is undefined and gives something else. -/
theorem getNetmask_eq (h : net.prefix_len = 0 → undefined = 0) :
    net.getNetmask undefined = mask 32 net.prefix_len := by
  rw [getNetmask, shl]
  split_ifs with hlt
  · rfl
  · have hzero : net.prefix_len = 0 := by omega
    rw [h hzero, hzero]
    rfl

theorem getAnyAddr_eq (h : net.prefix_len = 0 → undefined = 0) :
    net.getAnyAddr undefined = net.low := by
  rw [getAnyAddr, getNetmask_eq h, low]

theorem getBcastAddr_eq (h : net.prefix_len = 0 → undefined = 0) :
    net.getBcastAddr undefined = net.high := by
  rw [getBcastAddr, getNetmask_eq h, high]

theorem contain_iff_mem (h : net.prefix_len = 0 → undefined = 0) :
    net.contain undefined (some a) = true ↔ a ∈ net.network := by
  rw [mem_network_iff, ← getAnyAddr_eq h, ← getBcastAddr_eq h]
  exact decide_eq_true_iff

/-- Everything is contained in the network without a prefix only when the shift gives no bits. -/
theorem undefined_eq_zero (hcontain : ∀ a, net.contain undefined (some a) = true ↔ a ∈ net.network)
    (hzero : net.prefix_len = 0) : undefined = 0 := by
  have hmask : net.getNetmask undefined = undefined := by
    rw [getNetmask, shl, hzero]
    rfl
  have hall : ∀ a, net.base_addr &&& undefined ≤ a ∧ a ≤ net.base_addr ||| ~~~undefined := by
    intro a
    have hmem : a ∈ net.network := fun i hi => absurd hi (by omega)
    have hle := of_decide_eq_true ((hcontain a).2 hmem)
    rwa [getAnyAddr, getBcastAddr, hmask] at hle
  have hnone : net.base_addr &&& undefined = 0#32 := BitVec.le_zero_iff.1 (hall 0#32).1
  have hones : net.base_addr ||| ~~~undefined = BitVec.allOnes 32 :=
    BitVec.allOnes_le_iff.1 (hall (BitVec.allOnes 32)).2
  refine BitVec.eq_of_getLsbD_eq fun i hi => ?_
  have hbit := congrArg (fun x => x.getLsbD i) hnone
  have hbit' := congrArg (fun x => x.getLsbD i) hones
  simp only [BitVec.getLsbD_and, BitVec.getLsbD_or, BitVec.getLsbD_not, BitVec.getLsbD_allOnes,
    BitVec.getLsbD_zero, hi, decide_true, Bool.true_and] at hbit hbit'
  show undefined.getLsbD i = (0#32).getLsbD i
  rw [BitVec.getLsbD_zero]
  cases hbase : net.base_addr.getLsbD i
  · rw [hbase, Bool.false_or] at hbit'
    rwa [Bool.not_eq_true'] at hbit'
  · rwa [hbase, Bool.true_and] at hbit

theorem handed_eq (n : ℕ) : net.handed undefined n =
    cursor (net.getFirstAddr undefined) (net.getLastAddr undefined) n := by
  induction n with
  | zero => rfl
  | succ n ih => rw [handed, cursor, ih]; rfl

/-- A cursor which goes over hosts up to the last one. -/
theorem enumerates_of (h : net.prefix_len = 0 → undefined = 0)
    (hle : net.getFirstAddr undefined ≤ net.getLastAddr undefined)
    (hmem : ∀ a, net.getFirstAddr undefined ≤ a → a ≤ net.getLastAddr undefined → a ∈ net.hosts)
    (hlast : ∀ b ∈ net.hosts, b ≤ net.getLastAddr undefined) : net.Enumerates undefined := by
  refine ⟨fun a => contain_iff_mem h, fun n => ?_, ?_, fun n => ?_⟩
  · rw [handed_eq]
    exact hmem _ (cursor_mem hle n).1 (cursor_mem hle n).2
  · have hnat := BitVec.le_def.1 hle
    refine ⟨(net.getLastAddr undefined).toNat + 1 - (net.getFirstAddr undefined).toNat, ?_,
      fun n => ?_⟩
    · omega
    · rw [handed_eq, handed_eq]
      exact cursor_periodic hle n
  · rw [handed_eq, handed_eq, handed_eq]
    refine (cursor_succ_eq_iff hle n).trans ⟨fun heq => ?_, fun hgreatest => ?_⟩
    · rw [heq]
      exact hlast
    · exact BitVec.le_antisymm (cursor_mem hle n).2 (hgreatest _ (hmem _ hle (BitVec.le_refl _)))

/-! ### Networks by their size -/

theorem size_eq_one (h : net.prefix_len = 32) : 2 ^ (32 - net.prefix_len) = 1 := by rw [h]; rfl

theorem size_eq_two (h : net.prefix_len = 31) : 2 ^ (32 - net.prefix_len) = 2 := by rw [h]; rfl

theorem four_le_size (h : net.prefix_len ≤ 30) : 4 ≤ 2 ^ (32 - net.prefix_len) :=
  Nat.pow_le_pow_right (Nat.zero_lt_two) (show 2 ≤ 32 - net.prefix_len by omega)

theorem mem_hosts_of_small (h : 31 ≤ net.prefix_len) (ha : a ∈ net.network) : a ∈ net.hosts := by
  have hsize : 2 ^ (32 - net.prefix_len) ≤ 2 := by
    rcases Nat.lt_or_ge net.prefix_len 32 with hlt | hge
    · rw [size_eq_two (by omega)]
    · rw [size_eq_one (by have := net.prefix_len_le; omega)]
      decide
  refine ⟨ha, fun _ b hb => (isEnd_iff hb).2 ?_⟩
  obtain ⟨hlow, hhigh⟩ := mem_network_iff.1 hb
  have hnat := net.toNat_high
  rw [BitVec.le_def] at hlow hhigh
  by_cases heq : b.toNat = net.low.toNat
  · exact Or.inl (BitVec.eq_of_toNat_eq heq)
  · exact Or.inr (BitVec.eq_of_toNat_eq (by omega))

/-- With four addresses or more, the hosts are the ones between the ends. -/
theorem mem_hosts_iff (h : net.prefix_len ≤ 30) :
    a ∈ net.hosts ↔ net.low.toNat < a.toNat ∧ a.toNat < net.high.toNat := by
  have hsize := four_le_size h
  have hnat := net.toNat_high
  have hhigh := net.high.isLt
  constructor
  · rintro ⟨hmem, hend⟩
    obtain ⟨hle, hle'⟩ := mem_network_iff.1 hmem
    rw [BitVec.le_def] at hle hle'
    -- the address after the network address is no end
    have hnext : (BitVec.ofNat 32 (net.low.toNat + 1)).toNat = net.low.toNat + 1 := by
      rw [BitVec.toNat_ofNat]
      exact Nat.mod_eq_of_lt (by omega)
    have hnot : ¬ net.IsEnd a := by
      intro ha
      have hb : BitVec.ofNat 32 (net.low.toNat + 1) ∈ net.network := by
        rw [mem_network_iff, BitVec.le_def, BitVec.le_def, hnext]
        omega
      rcases (isEnd_iff hb).1 (hend ha _ hb) with heq | heq
      · rw [heq] at hnext
        omega
      · rw [heq] at hnext
        omega
    rw [isEnd_iff hmem, not_or] at hnot
    refine ⟨lt_of_le_of_ne hle fun heq => hnot.1 (BitVec.eq_of_toNat_eq heq.symm), ?_⟩
    exact lt_of_le_of_ne hle' fun heq => hnot.2 (BitVec.eq_of_toNat_eq heq)
  · rintro ⟨hlt, hlt'⟩
    have hmem : a ∈ net.network := mem_network_iff.2 ⟨Nat.le_of_lt hlt, Nat.le_of_lt hlt'⟩
    refine ⟨hmem, fun hend => absurd ((isEnd_iff hmem).1 hend) ?_⟩
    rintro (rfl | rfl)
    · exact absurd hlt (Nat.lt_irrefl _)
    · exact absurd hlt' (Nat.lt_irrefl _)

theorem getFirstAddr_of_ne (h : net.prefix_len = 0 → undefined = 0)
    (hne : net.base_addr ≠ net.low) : net.getFirstAddr undefined = net.base_addr := by
  unfold getFirstAddr
  simp only [getAnyAddr_eq h, if_neg hne, ite_self]

theorem getFirstAddr_of_mem (h : net.prefix_len = 0 → undefined = 0) (heq : net.base_addr = net.low)
    (hmem : net.low + 1 ∈ net.network) : net.getFirstAddr undefined = net.low + 1 := by
  have hcontain := (contain_iff_mem h).2 hmem
  unfold getFirstAddr
  simp only [getAnyAddr_eq h, heq]
  exact if_neg (not_not.2 hcontain)

theorem getFirstAddr_of_notMem (h : net.prefix_len = 0 → undefined = 0)
    (heq : net.base_addr = net.low) (hnot : net.low + 1 ∉ net.network) :
    net.getFirstAddr undefined = net.low := by
  have hcontain := fun hc => hnot ((contain_iff_mem h).1 hc)
  unfold getFirstAddr
  simp only [getAnyAddr_eq h, heq]
  exact if_pos hcontain

theorem getLastAddr_of_mem (h : net.prefix_len = 0 → undefined = 0)
    (hmem : net.high - 1 ∈ net.network) : net.getLastAddr undefined = net.high - 1 := by
  have hcontain := (contain_iff_mem h).2 hmem
  unfold getLastAddr
  rw [getBcastAddr_eq h]
  exact if_neg (not_not.2 hcontain)

theorem getLastAddr_of_notMem (h : net.prefix_len = 0 → undefined = 0)
    (hnot : net.high - 1 ∉ net.network) : net.getLastAddr undefined = net.high := by
  have hcontain := fun hc => hnot ((contain_iff_mem h).1 hc)
  unfold getLastAddr
  rw [getBcastAddr_eq h]
  exact if_pos hcontain

/-- A network of one address has it as first and as last host. -/
theorem enumerates_of_eq_32 (hp : net.prefix_len = 32) : net.Enumerates undefined := by
  have h : net.prefix_len = 0 → undefined = 0 := by omega
  have hnat := net.toNat_high
  rw [size_eq_one hp] at hnat
  have hhigh : net.high = net.low := BitVec.eq_of_toNat_eq (by omega)
  have hmem : ∀ a, a ∈ net.network ↔ a = net.low := by
    intro a
    rw [mem_network_iff, hhigh]
    exact ⟨fun ha => BitVec.le_antisymm ha.2 ha.1, fun ha => by
      rw [ha]
      exact ⟨BitVec.le_refl _, BitVec.le_refl _⟩⟩
  have hbase : net.base_addr = net.low := (hmem _).1 net.base_addr_mem
  have hfirst : net.getFirstAddr undefined = net.low := by
    refine getFirstAddr_of_notMem h hbase ?_
    rw [hmem]
    bv_omega
  have hlast : net.getLastAddr undefined = net.low := by
    rw [getLastAddr_of_notMem h, hhigh]
    · rw [hmem, hhigh]
      bv_omega
  refine enumerates_of h ?_ (fun a ha ha' => ?_) fun b hb => ?_
  · rw [hfirst, hlast]
    exact BitVec.le_refl _
  · rw [hfirst] at ha
    rw [hlast] at ha'
    exact mem_hosts_of_small (by omega) ((hmem a).2 (BitVec.le_antisymm ha' ha))
  · rw [hlast, (hmem b).1 hb.1]
    exact BitVec.le_refl _

/-- With four addresses or more, the cursor goes from the base address, or the one after it, up to
the one before the broadcast address. -/
theorem enumerates_of_le_30 (h : net.prefix_len = 0 → undefined = 0) (hp : net.prefix_len ≤ 30)
    (hbase : net.base_addr ≠ net.high) : net.Enumerates undefined := by
  have hsize := four_le_size hp
  have hnat := net.toNat_high
  have hhigh := net.high.isLt
  obtain ⟨hle, hle'⟩ := mem_network_iff.1 net.base_addr_mem
  rw [BitVec.le_def] at hle hle'
  have hne : net.base_addr.toNat ≠ net.high.toNat := fun heq => hbase (BitVec.eq_of_toNat_eq heq)
  have hpred : (net.high - 1).toNat = net.high.toNat - 1 :=
    BitVec.toNat_sub_of_le (BitVec.le_def.2 (show 1 ≤ net.high.toNat by omega))
  have hlast : net.getLastAddr undefined = net.high - 1 := by
    refine getLastAddr_of_mem h (mem_network_iff.2 ?_)
    rw [BitVec.le_def, BitVec.le_def, hpred]
    omega
  have hfirst : net.low.toNat < (net.getFirstAddr undefined).toNat ∧
      (net.getFirstAddr undefined).toNat ≤ net.high.toNat - 1 := by
    by_cases heq : net.base_addr = net.low
    · have hsucc : (net.low + 1).toNat = net.low.toNat + 1 :=
        BitVec.toNat_add_of_lt (show net.low.toNat + 1 < 2 ^ 32 by omega)
      rw [getFirstAddr_of_mem h heq, hsucc]
      · omega
      · rw [mem_network_iff, BitVec.le_def, BitVec.le_def, hsucc]
        omega
    · have hne' : net.base_addr.toNat ≠ net.low.toNat := fun h' => heq (BitVec.eq_of_toNat_eq h')
      rw [getFirstAddr_of_ne h heq]
      omega
  refine enumerates_of h ?_ (fun a ha ha' => ?_) fun b hb => ?_
  · rw [BitVec.le_def, hlast, hpred]
    exact hfirst.2
  · rw [BitVec.le_def] at ha ha'
    rw [hlast, hpred] at ha'
    exact (mem_hosts_iff hp).2 ⟨hfirst.1.trans_le ha, by omega⟩
  · have hb' := (mem_hosts_iff hp).1 hb
    rw [BitVec.le_def, hlast, hpred]
    omega

/-- A network of two addresses begins with the last one, and is left from there. -/
theorem not_enumerates_of_eq_31 (hp : net.prefix_len = 31) : ¬ net.Enumerates undefined := by
  intro henum
  have h : net.prefix_len = 0 → undefined = 0 := by omega
  have hnat := net.toNat_high
  rw [size_eq_two hp] at hnat
  have hhigh : net.high = net.low + 1 := by bv_omega
  obtain ⟨hle, hle'⟩ := mem_network_iff.1 net.base_addr_mem
  have hfirst : net.getFirstAddr undefined = net.high := by
    by_cases heq : net.base_addr = net.low
    · rw [getFirstAddr_of_mem h heq (hhigh ▸ net.high_mem), hhigh]
    · rw [getFirstAddr_of_ne h heq]
      bv_omega
  have hlast : net.getLastAddr undefined = net.low := by
    have hpred : net.high - 1 = net.low := by bv_omega
    rw [getLastAddr_of_mem h (hpred ▸ net.low_mem), hpred]
  have hleft := mem_network_iff.1 (henum.mem 1).1
  rw [handed_eq, cursor, cursor, hfirst, hlast, if_neg (by bv_omega)] at hleft
  bv_omega

/-- The broadcast address is handed out first when it is the base address. -/
theorem not_enumerates_of_eq_high (h : net.prefix_len = 0 → undefined = 0)
    (hp : net.prefix_len ≤ 30) (hbase : net.base_addr = net.high) : ¬ net.Enumerates undefined := by
  intro henum
  have hsize := four_le_size hp
  have hnat := net.toNat_high
  have hne : net.base_addr ≠ net.low := fun heq => by
    rw [← hbase, heq] at hnat
    omega
  have hhost := (mem_hosts_iff hp).1 (henum.mem 0)
  rw [handed_eq, cursor, getFirstAddr_of_ne h hne, hbase] at hhost
  exact absurd hhost.2 (Nat.lt_irrefl _)

/-- The base address is the broadcast address. -/
theorem base_addr_eq_high_iff : net.base_addr = net.high ↔
    ∀ i, net.prefix_len ≤ i → i < 32 → net.base_addr.getMsbD i = true :=
  (eq_or_not_mask_iff net.prefix_len_le).trans (and_iff_right (Agree.refl _ _))

/-- The addresses of a network are handed out exactly when there is one, or at least four and the
base address is not the broadcast address; without a prefix, when the shift gives no bits. -/
theorem enumerates_iff (undefined : BitVec 32) (net : IpNetaddr) : net.Enumerates undefined ↔
    (net.prefix_len = 0 → undefined = 0) ∧ (net.prefix_len = 32 ∨ net.prefix_len ≤ 30 ∧
      ¬ ∀ i, net.prefix_len ≤ i → i < 32 → net.base_addr.getMsbD i = true) := by
  rw [← base_addr_eq_high_iff]
  constructor
  · intro henum
    have h := undefined_eq_zero henum.contain
    refine ⟨h, ?_⟩
    by_contra hnot
    rw [not_or, not_and_not_right] at hnot
    rcases Nat.lt_or_ge 30 net.prefix_len with hlt | hge
    · have hle := net.prefix_len_le
      exact not_enumerates_of_eq_31 (by omega) henum
    · exact not_enumerates_of_eq_high h hge (hnot.2 hge) henum
  · rintro ⟨h, hp | ⟨hp, hbase⟩⟩
    · exact enumerates_of_eq_32 hp
    · exact enumerates_of_le_30 h hp hbase

/-- The second address of `10.0.0.0/31` is `10.0.0.2`. -/
theorem not_enumerates : ¬ (⟨0x0A000000, 31, by decide⟩ : IpNetaddr).Enumerates 0 := by
  intro h
  have hleft := h.mem 1
  exact absurd (hleft.1 30 (by decide)) (by decide)

end IpNetaddr

end Neoip
