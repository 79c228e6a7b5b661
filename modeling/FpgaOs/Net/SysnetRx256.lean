import Mathlib.Data.List.Flatten
import FpgaOs.Lib.BitField
import FpgaOs.Lib.Feed
import FpgaOs.Lib.Frame

/-!
# The receive demultiplexer for units of 256 bits

`sysnet_rx_256` sends each packet to the output that the app id in its first unit selects. It keeps
the id in a `char`, which is signed, and takes the remainder by the number of outputs after that.
The remainder of a negative number is negative or zero, so for half of the ids the array of outputs
is accessed below its first element, or the packet goes to the first output although its id is not
divisible by the number of outputs.
-/

namespace FpgaOs.Net

open BitField Feed

/-- `struct net_axis_256`. -/
structure NetAxis256 where
  data : BitVec 256 := 0
  last : BitVec 1 := 0
  keep : BitVec 32 := 0
  user : BitVec 32 := 0
  deriving DecidableEq

/-- `enum SYSNET_RX_STATE`. -/
inductive Rx256State
  | idle
  | stream
  deriving DecidableEq

/-- The static variables of `sysnet_rx_256`; `APP_ID` is a `char`. -/
structure SysnetRx256 where
  state : Rx256State
  appId : BitVec 8

/-- `APP_ID % NR_OUTPUTS`, the remainder of C, for `nrOutputs` outputs. -/
def reduceAppId (nrOutputs : ℕ) (appId : BitVec 8) : BitVec 8 :=
  BitVec.ofInt 8 (appId.toInt.tmod nrOutputs)

/-- `sysnet_rx_256` reads a unit; what it writes is given with the index of the output. -/
def SysnetRx256.read (nrOutputs : ℕ) (s : SysnetRx256) (current : NetAxis256) :
    SysnetRx256 × List (ℤ × NetAxis256) :=
  match s.state with
  | .idle =>
    let appId := reduceAppId nrOutputs (slice current.data 112 8)
    (⟨.stream, appId⟩, [(appId.toInt, current)])
  | .stream => (if current.last = 1 then ⟨.idle, 0⟩ else s, [(s.appId.toInt, current)])

/-- A packet of two or more units. -/
structure Packet256 extends Frame fun d : NetAxis256 ↦ d.last = 1 where
  rest_ne_nil : rest ≠ []

namespace Packet256

variable (nrOutputs : ℕ) (p : Packet256)

/-- The app id of a packet. -/
def appId : ℕ := (slice p.first.data 112 8).toNat

/-- The output that a packet is for. -/
def output : ℕ := p.appId % nrOutputs

/-- The index that `sysnet_rx_256` computes. -/
def index : ℤ := (reduceAppId nrOutputs (slice p.first.data 112 8)).toInt

/-- The condition: the id is not negative as a `char`, or the number of outputs divides both it and
`256`. -/
def InRange : Prop := p.appId < 128 ∨ (nrOutputs ∣ p.appId ∧ nrOutputs ∣ 256)

end Packet256

/-- What has been written with an index. -/
def written (i : ℕ) (out : List (ℤ × NetAxis256)) : List NetAxis256 :=
  (out.filter fun w ↦ w.1 = (i : ℤ)).map Prod.snd

/-- The packets for an output. -/
def packetsFor (nrOutputs i : ℕ) (ps : List Packet256) : List NetAxis256 :=
  (ps.filter fun p ↦ p.output nrOutputs = i).flatMap fun p ↦ p.units

/-- `sysnet_rx_256` on a stream of packets, under a schedule of arrivals and calls. -/
def received256 (nrOutputs : ℕ) (ps : List Packet256) (ts : List Turn) :
    Feed NetAxis256 SysnetRx256 (ℤ × NetAxis256) :=
  under (SysnetRx256.read nrOutputs) ⟨.idle, 0⟩ (ps.flatMap fun p ↦ p.units) ts

/-- All accesses are to outputs, and each output gets its packets: in order as far as they have been
read, and all of them when everything has been read. -/
structure Demultiplexed256 (nrOutputs : ℕ) (ps : List Packet256)
    (f : Feed NetAxis256 SysnetRx256 (ℤ × NetAxis256)) : Prop where
  range : ∀ w ∈ f.out, 0 ≤ w.1 ∧ w.1 < nrOutputs
  prefixes : ∀ i < nrOutputs, written i f.out <+: packetsFor nrOutputs i ps
  complete : f.queue = [] → f.input = [] → ∀ i < nrOutputs, written i f.out
    = packetsFor nrOutputs i ps

/-! ## The index -/

section Index

variable {n : ℕ} {p : Packet256}

theorem appId_lt (p : Packet256) : p.appId < 256 := (slice p.first.data 112 8).isLt

theorem index_eq_tmod (n : ℕ) (p : Packet256) :
    p.index n = (slice p.first.data 112 8).toInt.tmod n := by
  have hle := BitVec.le_toInt (slice p.first.data 112 8)
  have hlt := BitVec.toInt_lt (x := slice p.first.data 112 8)
  have habs := Nat.mod_le (slice p.first.data 112 8).toInt.natAbs n
  have hnat : ((slice p.first.data 112 8).toInt.tmod n).natAbs
    = (slice p.first.data 112 8).toInt.natAbs % n :=
    Int.natAbs_tmod _ _
  rw [Packet256.index, reduceAppId]
  apply BitVec.toInt_ofInt_eq_self (by decide)
  · omega
  · rcases Int.le_total 0 (slice p.first.data 112 8).toInt with hpos | hneg
    · omega
    · have hsign := Int.tmod_nonneg n (Int.neg_nonneg_of_nonpos hneg)
      rw [Int.neg_tmod] at hsign
      omega

theorem index_of_lt (h : p.appId < 128) : p.index n = p.output n := by
  have htoInt : (slice p.first.data 112 8).toInt = p.appId :=
    BitVec.toInt_eq_toNat_of_lt (by rw [Packet256.appId] at h; omega)
  rw [index_eq_tmod, htoInt]
  rfl

theorem index_of_ge (h : 128 ≤ p.appId) : p.index n = -((256 - p.appId) % n : ℕ) := by
  have hlt := appId_lt p
  have htoInt : (slice p.first.data 112 8).toInt = -((256 - p.appId : ℕ) : ℤ) := by
    rw [BitVec.toInt_eq_toNat_cond]
    rw [Packet256.appId] at h hlt ⊢
    rw [if_neg (by omega)]
    omega
  rw [index_eq_tmod, htoInt, Int.neg_tmod]
  rfl

/-- The only output that a negative id can select is the first one. -/
theorem index_eq_output_or (hindex : 0 ≤ p.index n) : p.index n = p.output n ∨ p.index n = 0 := by
  by_cases h : p.appId < 128
  · exact .inl (index_of_lt h)
  · rw [index_of_ge (Nat.le_of_not_lt h)] at hindex ⊢
    exact .inr (by omega)

/-- The condition says that the index is that of the output. -/
theorem inRange_iff (n : ℕ) (p : Packet256) : p.InRange n ↔ p.index n = p.output n := by
  by_cases h : p.appId < 128
  · exact iff_of_true (.inl h) (index_of_lt h)
  · have hlt := appId_lt p
    have hge : 128 ≤ p.appId := Nat.le_of_not_lt h
    rw [Packet256.InRange, or_iff_right h, index_of_ge hge, Packet256.output]
    constructor
    · rintro ⟨hid, h256⟩
      rw [Nat.mod_eq_zero_of_dvd (Nat.dvd_sub h256 hid), Nat.mod_eq_zero_of_dvd hid]
      rfl
    · intro heq
      -- a number that is both at most and at least zero
      have hid : n ∣ p.appId := Nat.dvd_of_mod_eq_zero (by omega)
      have hsub : n ∣ 256 - p.appId := Nat.dvd_of_mod_eq_zero (by omega)
      have h256 := Nat.dvd_add hid hsub
      rw [Nat.add_sub_cancel' hlt.le] at h256
      exact ⟨hid, h256⟩

end Index

/-! ## The output -/

section Output

variable {n : ℕ}

theorem read256_stream {s : SysnetRx256} (hst : s.state = .stream) {us : List NetAxis256}
    (hm : Marked (fun d : NetAxis256 ↦ d.last = 1) us) :
    after (SysnetRx256.read n) s us = ⟨.idle, 0⟩
      ∧ emits (SysnetRx256.read n) s us = us.map (Prod.mk s.appId.toInt) := by
  induction us with
  | nil => exact hm.elim
  | cons u us ih =>
    have hread : s.read n u = (if u.last = 1 then ⟨.idle, 0⟩ else s, [(s.appId.toInt, u)]) := by
      rw [SysnetRx256.read, hst]
    rw [after, emits, hread]
    obtain ⟨rfl, hlast⟩ | ⟨hlast, hm'⟩ := marked_cons.mp hm
    · rw [if_pos hlast]
      exact ⟨rfl, rfl⟩
    · obtain ⟨hafter, hout⟩ := ih hm'
      rw [if_neg hlast, hafter, hout]
      exact ⟨rfl, rfl⟩

theorem read256_packet (p : Packet256) :
    after (SysnetRx256.read n) ⟨.idle, 0⟩ p.units = ⟨.idle, 0⟩
      ∧ emits (SysnetRx256.read n) ⟨.idle, 0⟩ p.units = p.units.map (Prod.mk (p.index n)) := by
  have hm : Marked (fun d : NetAxis256 ↦ d.last = 1) p.rest :=
    p.rest_eq_nil_or_marked.elim (fun h ↦ absurd h.1 p.rest_ne_nil) And.right
  obtain ⟨hafter, hout⟩ :=
    @read256_stream n ⟨.stream, reduceAppId n (slice p.first.data 112 8)⟩ rfl _ hm
  rw [Frame.units, after, emits]
  exact ⟨hafter, congrArg _ hout⟩

theorem emits256 (ps : List Packet256) :
    emits (SysnetRx256.read n) ⟨.idle, 0⟩ (ps.flatMap fun p ↦ p.units)
      = ps.flatMap fun p ↦ p.units.map (Prod.mk (p.index n)) := by
  have htakes : ∀ p ∈ ps, ∀ st, st = ⟨.idle, 0⟩ →
    Takes (SysnetRx256.read n) (fun q : Packet256 ↦ q.units)
      (· = ⟨.idle, 0⟩) (fun q ↦ q.units.map (Prod.mk (q.index n))) st p := by
    rintro p - _ rfl
    exact read256_packet p
  exact (takes_all htakes rfl).2

theorem written_append (i : ℕ) (out out' : List (ℤ × NetAxis256)) :
    written i (out ++ out') = written i out ++ written i out' := by
  rw [written, List.filter_append, List.map_append]
  rfl

theorem written_map (i : ℕ) (j : ℤ) (us : List NetAxis256) :
    written i (us.map (Prod.mk j)) = if j = i then us else [] := by
  induction us with
  | nil => exact (ite_self []).symm
  | cons u us ih =>
    rw [written, List.map_cons, List.filter_cons]
    rw [written] at ih
    by_cases hj : j = i
    · rw [if_pos hj] at ih ⊢
      rw [if_pos (decide_eq_true hj), List.map_cons, ih]
    · rw [if_neg hj] at ih ⊢
      rw [if_neg (by simpa using hj), ih]

theorem written_flatMap (i : ℕ) (ps : List Packet256) :
    written i (ps.flatMap fun p ↦ p.units.map (Prod.mk (p.index n)))
      = (ps.filter fun p ↦ p.index n = (i : ℤ)).flatMap fun p ↦ p.units := by
  induction ps with
  | nil => rfl
  | cons p ps ih =>
    rw [List.flatMap_cons, written_append, written_map, ih, List.filter_cons]
    by_cases hp : p.index n = i
    · rw [if_pos hp, if_pos (decide_eq_true hp), List.flatMap_cons]
    · rw [if_neg hp, if_neg (by simpa using hp), List.nil_append]

/-- If two selections, one within the other, have the same units, they are the same. -/
theorem eq_of_flatMap_filter_eq {f g : Packet256 → Bool} {ps : List Packet256}
    (hfg : ∀ p ∈ ps, f p → g p)
    (h : ((ps.filter f).flatMap fun p ↦ p.units) = (ps.filter g).flatMap fun p ↦ p.units) :
    ∀ p ∈ ps, g p → f p := by
  induction ps with
  | nil => exact List.forall_mem_nil _
  | cons p ps ih =>
    obtain ⟨hp, hps⟩ := List.forall_mem_cons.mp hfg
    rw [List.filter_cons, List.filter_cons] at h
    by_cases hgp : g p
    · by_cases hfp : f p
      · rw [if_pos hfp, if_pos hgp] at h
        exact List.forall_mem_cons.mpr ⟨fun _ ↦ hfp, ih hps (List.append_cancel_left h)⟩
      · -- the selection within the other would have more units
        rw [if_neg hfp, if_pos hgp, List.flatMap_cons] at h
        have hsub : (ps.filter f).Sublist (ps.filter g) := by
          have hand : ps.filter f = (ps.filter g).filter f := by
            rw [List.filter_filter]
            refine List.filter_congr fun q hq ↦ ?_
            have hq := hps q hq
            cases hf : f q
            · rfl
            · rw [hq hf]
              rfl
          rw [hand]
          exact List.filter_sublist
        have hlen := (hsub.flatMap fun p ↦ p.units).length_le
        rw [h, List.length_append] at hlen
        have hpos := List.length_pos_of_ne_nil p.units_ne_nil
        omega
    · have hfp : ¬f p := fun hfp ↦ hgp (hp hfp)
      rw [if_neg hfp, if_neg hgp] at h
      exact List.forall_mem_cons.mpr ⟨fun hg ↦ absurd hg hgp, ih hps h⟩

theorem written_prefix (i : ℕ) {out out' : List (ℤ × NetAxis256)} (h : out <+: out') :
    written i out <+: written i out' := (h.filter _).map _

/-- The accesses for packets are those that their indices say. -/
theorem range_iff {ps : List Packet256} :
    (∀ w ∈ ps.flatMap fun p ↦ p.units.map (Prod.mk (p.index n)), 0 ≤ w.1 ∧ w.1 < (n : ℤ))
      ↔ ∀ p ∈ ps, 0 ≤ p.index n ∧ p.index n < n := by
  constructor
  · intro h p hp
    exact h (p.index n, p.first)
      (List.mem_flatMap.mpr ⟨p, hp, List.mem_map_of_mem List.mem_cons_self⟩)
  · intro h w hw
    obtain ⟨p, hp, hw⟩ := List.mem_flatMap.mp hw
    obtain ⟨u, -, rfl⟩ := List.mem_map.mp hw
    exact h p hp

/-- When the packets on the first output are right, no packet has gone there by mistake. -/
theorem inRange_of_first {ps : List Packet256} (hrange : ∀ p ∈ ps, 0 ≤ p.index n)
    (h : written 0 (ps.flatMap fun p ↦ p.units.map (Prod.mk (p.index n))) = packetsFor n 0 ps) :
    ∀ p ∈ ps, p.InRange n := by
  intro p hp
  rw [inRange_iff]
  rcases index_eq_output_or (hrange p hp) with hindex | hindex
  · exact hindex
  -- a packet below the range would be found on the first output
  · rw [written_flatMap, packetsFor] at h
    have himp : ∀ q ∈ ps, decide (q.output n = 0) → decide (q.index n = ((0 : ℕ) : ℤ)) := by
      intro q hq hout
      rw [decide_eq_true_iff] at hout ⊢
      rcases index_eq_output_or (hrange q hq) with hq | hq
      · rw [hq, hout]
      · exact hq
    have hout := eq_of_flatMap_filter_eq himp h.symm p hp (decide_eq_true hindex)
    rw [hindex, of_decide_eq_true hout]
    rfl

/-- **Receive demultiplexing.** Whatever the schedule, all accesses are to outputs and each output
gets exactly its packets, if and only if no app id is a negative `char`, unless the number of
outputs divides both the id and `256`. -/
theorem demultiplexed256_iff (hn : 0 < n) (ps : List Packet256) :
    (∀ ts, Demultiplexed256 n ps (received256 n ps ts)) ↔ ∀ p ∈ ps, p.InRange n := by
  constructor
  · intro h
    -- the schedule under which everything is read
    have hall := h (inTurn (ps.flatMap fun p ↦ p.units))
    have hrange := hall.range
    have hcomplete := hall.complete
    rw [received256, under_all, emits256] at hrange hcomplete
    exact inRange_of_first (fun p hp ↦ (range_iff.mp hrange p hp).1) (hcomplete rfl rfl 0 hn)
  · intro h ts
    have hindex : ∀ p ∈ ps, p.index n = p.output n := fun p hp ↦ (inRange_iff n p).mp (h p hp)
    have hwritten : ∀ i,
      written i (emits (SysnetRx256.read n) ⟨.idle, 0⟩ (ps.flatMap fun p ↦ p.units))
        = packetsFor n i ps := by
      intro i
      rw [emits256, written_flatMap, packetsFor]
      congr 1
      exact List.filter_congr fun p hp ↦ by simp only [hindex p hp, Int.natCast_inj]
    obtain ⟨us, hus⟩ :=
      @exists_hasRead _ _ _ (SysnetRx256.read n) ⟨.idle, 0⟩ (ps.flatMap fun p ↦ p.units) ts
    -- what has been written is a prefix of what the whole input leads to
    have hpre : (received256 n ps ts).out
        <+: emits (SysnetRx256.read n) ⟨.idle, 0⟩ (ps.flatMap fun p ↦ p.units) := by
      rw [← hus.split, emits_append, received256, hus.out_eq]
      exact List.prefix_append _ _
    refine ⟨?_, fun i _ ↦ ?_, fun hqueue hinput i _ ↦ ?_⟩
    · intro w hw
      have hmem := hpre.subset hw
      rw [emits256] at hmem
      refine (@range_iff n ps).mpr (fun p hp ↦ ?_) w hmem
      rw [hindex p hp, Packet256.output]
      exact ⟨Int.natCast_nonneg _, Int.ofNat_lt.mpr (Nat.mod_lt _ hn)⟩
    · rw [← hwritten i]
      exact written_prefix i hpre
    · have hall := hus.split
      rw [received256] at hqueue hinput
      rw [hqueue, hinput, List.append_nil, List.append_nil] at hall
      rw [← hwritten i, ← hall, received256, hus.out_eq]

/-- A packet of two units with app id `255`. -/
def packet255 : Packet256 := ⟨⟨{ data := 255 <<< 112 }, [{ last := 1 }], by decide⟩, by decide⟩

/-- A packet of two units with app id `3`. -/
def packet3 : Packet256 := ⟨⟨{ data := 3 <<< 112 }, [{ last := 1 }], by decide⟩, by decide⟩

/-- With two outputs, a packet for the second one goes there. -/
theorem demultiplexed256_packet3 :
    Demultiplexed256 2 [packet3] (received256 2 [packet3] (inTurn packet3.units)) :=
  (demultiplexed256_iff Nat.two_pos [packet3]).mpr
    (List.forall_mem_singleton.mpr (.inl (by decide +kernel))) (inTurn packet3.units)

/-- With two outputs, app id `255` selects the output at index `-1`. -/
theorem not_demultiplexed256_packet255 :
    ¬Demultiplexed256 2 [packet255] (received256 2 [packet255] (inTurn packet255.units)) := by
  intro h
  have hread : (-1, packet255.first)
    ∈ (received256 2 [packet255] (inTurn packet255.units)).out := by decide +kernel
  exact absurd (h.range _ hread).1 (by decide)

end Output

end FpgaOs.Net
