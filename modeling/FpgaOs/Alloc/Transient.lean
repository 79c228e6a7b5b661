import FpgaOs.Alloc.Buddy
import FpgaOs.Lib.Machine

/-!
# What a rejected `FREE` leaves behind

The check loop of `free` loads the nodes that are not cached into `buddy_free_set`, and when it
fails they stay there, marked valid. This is all that a rejected `FREE` changes, and nothing ever
looks at it: `alloc` does not use these lines, and the clear loop uses only those that the check
loop of the same request has just loaded. So two allocators that differ only there can not be told
apart.
-/

namespace FpgaOs.Alloc

open Machine

variable {c : Config}

/-! ## The cache -/

namespace Cache

/-- Two caches that differ at most in the registers that the hardware does not have. -/
structure Alike (s t : Cache c) : Prop where
  managedBase : s.managedBase = t.managedBase
  buddySet : s.buddySet = t.buddySet
  dram : s.dram = t.dram

namespace Alike

variable {s t s' t' : Cache c}

theorem refl (s : Cache c) : s.Alike s := ⟨rfl, rfl, rfl⟩

theorem trans {u : Cache c} (h : s.Alike t) (h' : t.Alike u) : s.Alike u :=
  ⟨h.managedBase.trans h'.managedBase, h.buddySet.trans h'.buddySet, h.dram.trans h'.dram⟩

theorem symm (h : s.Alike t) : t.Alike s :=
  ⟨h.managedBase.symm, h.buddySet.symm, h.dram.symm⟩

theorem ite {p : Prop} [Decidable p] (h : s.Alike t) (h' : s'.Alike t') :
    (if p then s else s').Alike (if p then t else t') := by
  split
  · exact h
  · exact h'

theorem line (h : s.Alike t) (level nrAsso : ℕ) : s.line level nrAsso = t.line level nrAsso := by
  rw [Cache.line, Cache.line, h.buddySet]

theorem drambuddy (h : s.Alike t) (tag : BitVec c.orderMax) (level : ℕ) :
    s.drambuddy tag level = t.drambuddy tag level := by
  rw [Cache.drambuddy, Cache.drambuddy, h.managedBase]

theorem setSet (h : s.Alike t) (level : ℕ) (set : BuddyCacheSet c) :
    (s.setSet level set).Alike (t.setSet level set) := by
  refine ⟨h.managedBase, ?_, h.dram⟩
  rw [Cache.setSet, Cache.setSet, h.buddySet]

theorem setLine (h : s.Alike t) (level nrAsso : ℕ) (line : BuddyCacheLine c) :
    (s.setLine level nrAsso line).Alike (t.setLine level nrAsso line) := by
  rw [Cache.setLine, Cache.setLine, h.buddySet]
  exact h.setSet ..

theorem dramWrite (h : s.Alike t) (tag : BitVec c.orderMax) (level : ℕ) (byte : BitVec 8) :
    (s.dramWrite tag level byte).Alike (t.dramWrite tag level byte) := by
  refine ⟨h.managedBase, h.buddySet, ?_⟩
  rw [Cache.dramWrite, Cache.dramWrite, h.dram, h.drambuddy]

theorem dramRead (h : s.Alike t) (tag : BitVec c.orderMax) (level : ℕ) :
    (s.dramRead tag level).1 = (t.dramRead tag level).1
      ∧ (s.dramRead tag level).2.Alike (t.dramRead tag level).2 := by
  refine ⟨?_, h.managedBase, h.buddySet, h.dram⟩
  rw [Cache.dramRead, Cache.dramRead, h.dram, h.drambuddy]

theorem dramRead_self (s : Cache c) (tag : BitVec c.orderMax) (level : ℕ) :
    (s.dramRead tag level).2.Alike s := ⟨rfl, rfl, rfl⟩

theorem flushLine (h : s.Alike t) (level nrAsso : ℕ) :
    (s.flushLine level nrAsso).Alike (t.flushLine level nrAsso) := by
  rw [Cache.flushLine, Cache.flushLine, h.line, h.buddySet]
  exact (h.dramWrite ..).setLine ..

theorem takeSlot (h : s.Alike t) (level nrAsso width : ℕ) (idx : BitVec 3) :
    (s.takeSlot level nrAsso width idx).Alike (t.takeSlot level nrAsso width idx) := by
  rw [Cache.takeSlot, Cache.takeSlot, h.line]
  exact ite ((h.setLine ..).flushLine ..) (h.setLine ..)

theorem lookUp (h : s.Alike t) (reqLevel width n : ℕ) :
    s.lookUp reqLevel width n = t.lookUp reqLevel width n := by
  induction n with
  | zero => rw [Cache.lookUp, Cache.lookUp, h.buddySet]
  | succ n ih => rw [Cache.lookUp, Cache.lookUp, h.buddySet, ih]

theorem loadLevel (h : s.Alike t) (i : ℕ) (tag : BitVec c.orderMax) (width : ℕ) (idx : BitVec 3) :
    (s.loadLevel i tag width idx).1.Alike (t.loadLevel i tag width idx).1
      ∧ (s.loadLevel i tag width idx).2 = (t.loadLevel i tag width idx).2 := by
  rw [Cache.loadLevel, Cache.loadLevel, h.buddySet]
  have hroom := ite (p := (chooseLine (t.buddySet i)).1 = true)
    (h.setSet i (chooseLine (t.buddySet i)).2.2)
    ((h.setSet i (chooseLine (t.buddySet i)).2.2).flushLine i (chooseLine (t.buddySet i)).2.1)
  obtain ⟨hbyte, hread⟩ := hroom.dramRead tag i
  dsimp only
  rw [hbyte]
  exact ⟨(hread.setLine ..).takeSlot .., rfl⟩

theorem cacheLoad (h : s.Alike t) (reqLevel width n i : ℕ) (tag : BitVec c.orderMax)
    (idx : BitVec 3) :
    (s.cacheLoad reqLevel width n i tag idx).1.Alike (t.cacheLoad reqLevel width n i tag idx).1
      ∧ (s.cacheLoad reqLevel width n i tag idx).2
        = (t.cacheLoad reqLevel width n i tag idx).2 := by
  induction n generalizing s t i tag idx with
  | zero => exact ⟨h, rfl⟩
  | succ n ih =>
    obtain ⟨halike, heq⟩ := h.loadLevel i tag (if i = reqLevel then width else 1) idx
    rw [Cache.cacheLoad, Cache.cacheLoad, heq]
    exact ih halike ..

theorem alloc (h : s.Alike t) (order : ℕ) : (s.alloc order).1 = (t.alloc order).1
    ∧ (s.alloc order).2.1 = (t.alloc order).2.1
    ∧ (s.alloc order).2.2.Alike (t.alloc order).2.2 := by
  rw [Cache.alloc, Cache.alloc]
  by_cases horder : c.orderMax - 1 ≤ order
  · rw [if_pos horder, if_pos horder]
    exact ⟨rfl, rfl, h⟩
  · rw [if_neg horder, if_neg horder]
    dsimp only
    rw [h.lookUp]
    cases t.lookUp (orderToLevel c order) (orderToWidth c order) (orderToLevel c order) with
    | none => exact ⟨rfl, rfl, h.managedBase, h.buddySet, h.dram⟩
    | some found =>
      obtain ⟨startLevel, nrAsso, idx⟩ := found
      dsimp only
      rw [h.line]
      obtain ⟨halike, htag⟩ := (h.takeSlot startLevel nrAsso _ idx).cacheLoad ..
      exact ⟨rfl, congrArg tagToAddr htag, halike⟩

end Alike

end Cache

/-! ## The lines that `free` loads -/

namespace Buddy

/-- Two allocators that differ at most in these lines, and in the registers that the hardware does
not have. -/
structure Alike (b b' : Buddy c) : Prop where
  cache : b.cache.Alike b'.cache
  level : ∀ i, (b.buddyFreeSet i).level = (b'.buddyFreeSet i).level

/-- The lines that have been loaded are the same, as far as the probe says that a node on the levels
up to `req` is not cached. From level `k` on they have been loaded. -/
def SameLoaded (b b' : Buddy c) (probe : Probe) (k req : ℕ) : Prop :=
  ∀ i, k ≤ i → i ≤ req → probe i = none → (b.buddyFreeSet i).line = (b'.buddyFreeSet i).line

theorem Alike.refl (b : Buddy c) : b.Alike b := ⟨.refl _, fun _ ↦ rfl⟩

theorem Alike.trans {b b' b'' : Buddy c} (h : b.Alike b') (h' : b'.Alike b'') : b.Alike b'' :=
  ⟨h.cache.trans h'.cache, fun i ↦ (h.level i).trans (h'.level i)⟩

theorem Alike.symm {b b' : Buddy c} (h : b.Alike b') : b'.Alike b :=
  ⟨h.cache.symm, fun i ↦ (h.level i).symm⟩

theorem level_setFreeLine (b : Buddy c) (i : ℕ) (line : BuddyCacheLine c) (j : ℕ) :
    ((b.setFreeLine i line).buddyFreeSet j).level = (b.buddyFreeSet j).level := by
  rw [setFreeLine]
  dsimp only
  by_cases hj : j = i
  · rw [hj, Function.update_self]
  · rw [Function.update_of_ne hj]

theorem line_setFreeLine_self (b : Buddy c) (i : ℕ) (line : BuddyCacheLine c) :
    ((b.setFreeLine i line).buddyFreeSet i).line = line := by
  rw [setFreeLine]
  dsimp only
  rw [Function.update_self]

theorem line_setFreeLine_of_ne (b : Buddy c) {i j : ℕ} (h : j ≠ i) (line : BuddyCacheLine c) :
    ((b.setFreeLine i line).buddyFreeSet j).line = (b.buddyFreeSet j).line := by
  rw [setFreeLine]
  dsimp only
  rw [Function.update_of_ne h]

/-! ### The check loop -/

/-- A round of the check loop changes nothing but the line that it loads. -/
theorem alike_checkLevel (b : Buddy c) (addr : BitVec 32) (i width : ℕ) :
    (b.checkLevel addr i width).2.2.Alike b := by
  rw [checkLevel]
  dsimp only
  split
  · exact .refl b
  · exact ⟨Cache.Alike.dramRead_self b.cache (addrToTag c addr i) i, level_setFreeLine _ i _⟩

theorem alike_check (b : Buddy c) (addr : BitVec 32) (reqLevel width n : ℕ) (probe : Probe) :
    (b.check addr reqLevel width n probe).2.2.Alike b := by
  induction n generalizing b probe with
  | zero => exact alike_checkLevel ..
  | succ n ih =>
    rw [check]
    by_cases hvalid : (b.checkLevel addr (n + 1) (if n + 1 = reqLevel then width else 1)).1 = true
    · rw [if_pos hvalid]
      exact (ih ..).trans (alike_checkLevel ..)
    · rw [if_neg hvalid]
      exact alike_checkLevel ..

variable {b b' : Buddy c}

theorem Alike.checkLevel (h : b.Alike b') (addr : BitVec 32) (i width : ℕ) :
    (b.checkLevel addr i width).1 = (b'.checkLevel addr i width).1
      ∧ (b.checkLevel addr i width).2.1 = (b'.checkLevel addr i width).2.1
      ∧ ((b'.checkLevel addr i width).2.1 = none →
        ((b.checkLevel addr i width).2.2.buddyFreeSet i).line
          = ((b'.checkLevel addr i width).2.2.buddyFreeSet i).line) := by
  obtain ⟨hbyte, -⟩ := h.cache.dramRead (addrToTag c addr i) i
  rw [Buddy.checkLevel, Buddy.checkLevel, h.cache.buddySet]
  dsimp only
  cases tagInCache (b'.cache.buddySet i) (addrToTag c addr i) with
  | some nrAsso =>
    dsimp only
    rw [h.cache.line]
    exact ⟨rfl, rfl, by rintro ⟨⟩⟩
  | none =>
    dsimp only
    rw [hbyte]
    exact ⟨rfl, rfl, fun _ ↦ by rw [line_setFreeLine_self, line_setFreeLine_self]⟩

theorem line_checkLevel_of_ne (b : Buddy c) (addr : BitVec 32) {i j : ℕ} (width : ℕ) (hj : j ≠ i) :
    ((b.checkLevel addr i width).2.2.buddyFreeSet j).line = (b.buddyFreeSet j).line := by
  rw [Buddy.checkLevel]
  dsimp only
  split
  · rfl
  · exact line_setFreeLine_of_ne _ hj _

/-- After a round on level `i`, the lines from this level on are loaded. -/
theorem SameLoaded.checkLevel {probe : Probe} {i req : ℕ}
    (hloaded : SameLoaded b b' probe (i + 1) req) (h : b.Alike b') (addr : BitVec 32) (width : ℕ) :
    SameLoaded (b.checkLevel addr i width).2.2 (b'.checkLevel addr i width).2.2
      (Function.update probe i (b'.checkLevel addr i width).2.1) i req := by
  intro j hle hreq hprobe
  by_cases hj : j = i
  · rw [hj] at hprobe ⊢
    rw [Function.update_self] at hprobe
    exact (h.checkLevel addr i width).2.2 hprobe
  · rw [Function.update_of_ne hj] at hprobe
    rw [line_checkLevel_of_ne b addr width hj, line_checkLevel_of_ne b' addr width hj]
    exact hloaded j (by omega) hreq hprobe

/-- The check loop comes to the same result, and if it succeeds then all lines that it has not found
in the cache are loaded. -/
theorem Alike.check (h : b.Alike b') (addr : BitVec 32) (req width n : ℕ) (probe : Probe)
    (hloaded : SameLoaded b b' probe (n + 1) req) :
    (b.check addr req width n probe).1 = (b'.check addr req width n probe).1
      ∧ (b.check addr req width n probe).2.1 = (b'.check addr req width n probe).2.1
      ∧ ((b'.check addr req width n probe).1 = true →
        SameLoaded (b.check addr req width n probe).2.2 (b'.check addr req width n probe).2.2
          (b'.check addr req width n probe).2.1 0 req) := by
  induction n generalizing b b' probe with
  | zero =>
    obtain ⟨hvalid, hprobe, -⟩ := h.checkLevel addr 0 (if 0 = req then width else 1)
    refine ⟨hvalid, ?_, fun _ ↦ hloaded.checkLevel h addr _⟩
    rw [Buddy.check, Buddy.check, hprobe]
  | succ n ih =>
    obtain ⟨hvalid, hprobe, -⟩ := h.checkLevel addr (n + 1) (if n + 1 = req then width else 1)
    have hnext := hloaded.checkLevel h addr (if n + 1 = req then width else 1)
    have halike := (alike_checkLevel b addr (n + 1) (if n + 1 = req then width else 1)).trans
      (h.trans (alike_checkLevel b' addr (n + 1) (if n + 1 = req then width else 1)).symm)
    rw [Buddy.check, Buddy.check, hvalid, hprobe]
    by_cases hgo : (b'.checkLevel addr (n + 1) (if n + 1 = req then width else 1)).1 = true
    · rw [if_pos hgo, if_pos hgo]
      exact ih halike _ hnext
    · rw [if_neg hgo, if_neg hgo]
      exact ⟨rfl, rfl, fun hfalse ↦ Bool.noConfusion hfalse⟩

/-! ### The clear loop -/

theorem Alike.clearLevel (h : b.Alike b') {probe : Probe} {i : ℕ}
    (hline : probe i = none → (b.buddyFreeSet i).line = (b'.buddyFreeSet i).line)
    (addr : BitVec 32) (width : ℕ) :
    (b.clearLevel probe addr i width).1 = (b'.clearLevel probe addr i width).1
      ∧ (b.clearLevel probe addr i width).2.Alike (b'.clearLevel probe addr i width).2 := by
  rw [Buddy.clearLevel, Buddy.clearLevel]
  dsimp only
  cases hprobe : probe i with
  | some nrAsso =>
    dsimp only
    have hset := h.cache.setLine i nrAsso
      (setClearBits (b'.cache.line i nrAsso) width (addrToIdx c addr i) false)
    rw [h.cache.line, hset.buddySet]
    exact ⟨rfl, .ite ((hset.dramWrite ..).setLine ..) hset, h.level⟩
  | none =>
    dsimp only
    rw [hline hprobe, h.level]
    refine ⟨rfl, h.cache.dramWrite .., fun j ↦ ?_⟩
    rw [level_setFreeLine, level_setFreeLine]
    exact h.level j

theorem line_clearLevel_of_ne (b : Buddy c) (probe : Probe) (addr : BitVec 32) {i j : ℕ}
    (width : ℕ) (hj : j ≠ i) :
    ((b.clearLevel probe addr i width).2.buddyFreeSet j).line = (b.buddyFreeSet j).line := by
  rw [Buddy.clearLevel]
  dsimp only
  split
  · rfl
  · exact line_setFreeLine_of_ne _ hj _

theorem Alike.clear (h : b.Alike b') {probe : Probe} (addr : BitVec 32) (req width n : ℕ)
    (hloaded : SameLoaded b b' probe 0 n) :
    (b.clear probe addr req width n).Alike (b'.clear probe addr req width n) := by
  induction n generalizing b b' with
  | zero => exact (h.clearLevel (hloaded 0 le_rfl le_rfl) addr _).2
  | succ n ih =>
    obtain ⟨hcont, halike⟩ := h.clearLevel (hloaded (n + 1) (Nat.zero_le _) le_rfl) addr
      (if n + 1 = req then width else 1)
    rw [Buddy.clear, Buddy.clear, hcont]
    by_cases hgo : (b'.clearLevel probe addr (n + 1) (if n + 1 = req then width else 1)).1 = true
    · rw [if_pos hgo, if_pos hgo]
      refine ih halike fun j hle hj hprobe ↦ ?_
      rw [line_clearLevel_of_ne _ _ _ _ (by omega), line_clearLevel_of_ne _ _ _ _ (by omega)]
      exact hloaded j hle (by omega) hprobe
    · rw [if_neg hgo, if_neg hgo]
      exact halike

/-! ### Requests -/

theorem Alike.free (h : b.Alike b') (order : ℕ) (addr : BitVec 32) :
    (b.free order addr).1 = (b'.free order addr).1
      ∧ (b.free order addr).2.Alike (b'.free order addr).2 := by
  rw [Buddy.free, Buddy.free]
  by_cases horder : c.orderMax - 1 ≤ order
  · rw [if_pos horder, if_pos horder]
    exact ⟨rfl, h⟩
  · rw [if_neg horder, if_neg horder]
    dsimp only
    obtain ⟨hvalid, hprobe, hloaded⟩ := h.check addr (orderToLevel c order) (orderToWidth c order)
      (orderToLevel c order) (fun _ ↦ some 0) fun j hle hreq _ ↦ by omega
    have halike := (alike_check b addr (orderToLevel c order) (orderToWidth c order)
      (orderToLevel c order) fun _ ↦ some 0).trans (h.trans (alike_check b' addr
        (orderToLevel c order) (orderToWidth c order) (orderToLevel c order) fun _ ↦ some 0).symm)
    rw [hvalid, hprobe]
    split
    · next hok => exact ⟨rfl, halike.clear _ _ _ _ (hloaded hok)⟩
    · exact ⟨rfl, halike⟩

theorem Alike.handler (h : b.Alike b') (req : Request c) :
    (b.handler req).1 = (b'.handler req).1 ∧ (b.handler req).2.Alike (b'.handler req).2 := by
  cases req with
  | alloc order =>
    obtain ⟨hstat, haddr, halike⟩ := h.cache.alloc order.toNat
    rw [Buddy.handler, Buddy.handler]
    dsimp only
    rw [hstat, haddr, h.cache.managedBase]
    exact ⟨rfl, halike, h.level⟩
  | free addr order =>
    rw [Buddy.handler, Buddy.handler, h.cache.managedBase]
    obtain ⟨hstat, halike⟩ := h.free order.toNat (addr - b'.cache.managedBase.setWidth 32)
    dsimp only
    rw [hstat]
    exact ⟨rfl, halike⟩

/-- A rejected request changes nothing but the lines that it has loaded. -/
theorem alike_of_rejected {addr : BitVec 32} {order : BitVec c.orderMax}
    (h : (b.handler (.free addr order)).1.stat = 1) : (b.handler (.free addr order)).2.Alike b := by
  rw [Buddy.handler, Buddy.free] at h ⊢
  dsimp only at h ⊢
  by_cases horder : c.orderMax - 1 ≤ order.toNat
  · rw [if_pos horder]
    exact .refl b
  · rw [if_neg horder] at h ⊢
    split
    · next hok =>
      rw [if_pos hok] at h
      have hstat : (0 : BitVec 1) = 1 := h
      exact absurd hstat (by decide)
    · exact alike_check ..

/-- What is answered to requests, one after the other. -/
def replies : Buddy c → List (Request c) → List Reply :=
  outputs (fun b req ↦ (b.handler req).2) fun b req ↦ (b.handler req).1

/-- **Rejected requests.** Whatever has been requested before, and whatever is requested afterwards:
after a `FREE` that has been rejected, all answers are the same as without it. -/
theorem replies_of_rejected (b : Buddy c) (addr : BitVec 32) (order : BitVec c.orderMax)
    (h : (b.handler (.free addr order)).1.stat = 1) (later : List (Request c)) :
    replies (b.handler (.free addr order)).2 later = replies b later :=
  outputs_eq_of_rel (fun _ _ req halike ↦ halike.handler req) (alike_of_rejected h) later

/-- A request for a block that has not been allocated; its node is loaded. -/
theorem replies_of_rejected_phys :
    replies ((init .phys 0).handler (.free 0x500000 3)).2 [.alloc 3, .free 0x400000 3]
      = replies (init .phys 0) [.alloc 3, .free 0x400000 3] :=
  replies_of_rejected (init .phys 0) 0x500000 3 (by decide +kernel) _

end Buddy

end FpgaOs.Alloc
