import AccessSampling.RingBuffer

/-!
# What one call of `read` does

`read` mixes four integer types; this module reduces it to plain arithmetic, once.

* Masking is reduction modulo the capacity in each of the three widths it is done
  in, because the capacity is a power of two that divides `2 ^ 32` and `2 ^ 64`.
* The wrap test fires exactly when the record reaches the end of the data area
  (`wraps_iff`); it also fires when the record ends right there.
* The copying loop then makes one copy or two (`copyLoop_one`, `copyLoop_two`),
  whatever the 32-bit offset does meanwhile.

`readFrom_window` puts them together.  `readFrom_record` says that `read` hands out the
record at the reader's position and moves past it, and `read_modular` that it reads like a
reader of single bytes, whatever is there.
-/

namespace AccessSampling

open Foundation

namespace Geometry

variable (g : Geometry)

theorem capacity_pos : 0 < g.capacity := Nat.two_pow_pos g.order

theorem capacity_ge : 2 ^ 16 ≤ g.capacity := Nat.pow_le_pow_right (by decide) g.order_ge

theorem capacity_le : g.capacity ≤ 2 ^ 30 := Nat.pow_le_pow_right (by decide) g.order_le

theorem capacity_dvd32 : g.capacity ∣ 2 ^ 32 :=
  Nat.pow_dvd_pow 2 (g.order_le.trans (by decide))

theorem capacity_dvd64 : g.capacity ∣ 2 ^ 64 :=
  Nat.pow_dvd_pow 2 (g.order_le.trans (by decide))

theorem dvd_capacity : 8 ∣ g.capacity :=
  (Nat.pow_dvd_pow 2 (by decide : 3 ≤ 16)).trans (Nat.pow_dvd_pow 2 g.order_ge)

theorem page_lt : g.page < 2 ^ 64 := by
  have h := g.capacity_eq
  have hle := g.capacity_le
  simp only [capacity, BUFFERSIZE_DEFAULT] at h hle
  omega

theorem toNat_page : (UInt64.ofNat g.page).toNat = g.page :=
  UInt64.toNat_ofNat_of_lt' g.page_lt

/-- `mask_` as the constructor leaves it. -/
def mask : Int32 := (PerfRingBuffer.new g).mask_

theorem toNat_mask32 : g.mask.toUInt32.toNat = 2 ^ g.order - 1 := by
  have hmul : (UInt64.ofNat BUFFERSIZE_DEFAULT * UInt64.ofNat g.page - 1).toNat
      = 2 ^ g.order - 1 := by
    have hone : (1 : UInt64) = UInt64.ofNat 1 := rfl
    have hle : 1 ≤ 2 ^ g.order := g.capacity_pos
    have hlt : 2 ^ g.order ≤ 2 ^ 30 := g.capacity_le
    rw [← UInt64.ofNat_mul, g.capacity_eq, hone, toNat_ofNat_sub hle (by omega)]
  have hlt : 2 ^ g.order ≤ 2 ^ 30 := g.capacity_le
  rw [mask, PerfRingBuffer.new, UInt32.toUInt32_toInt32, UInt64.toNat_toUInt32, hmul]
  omega

theorem toInt_mask : g.mask.toInt = (2 ^ g.order - 1 : ℕ) := by
  have hlt : 2 ^ g.order ≤ 2 ^ 30 := g.capacity_le
  have h32 := g.toNat_mask32
  have h := toInt_toInt32 (x := g.mask.toUInt32) (by omega)
  rwa [Int32.toInt32_toUInt32, h32] at h

theorem toNat_mask64 : g.mask.toInt64.toUInt64.toNat = 2 ^ g.order - 1 :=
  toNat_toInt64_toUInt64 g.toInt_mask

theorem toNat_mask_add_one : (g.mask + 1).toUInt32.toNat = g.capacity := by
  have hle : g.capacity ≤ 2 ^ 30 := g.capacity_le
  have hpos := g.capacity_pos
  have h32 : g.mask.toUInt32.toNat = g.capacity - 1 := g.toNat_mask32
  rw [Int32.toUInt32_add, UInt32.toNat_add, h32]
  change (g.capacity - 1 + 1) % 2 ^ 32 = g.capacity
  omega

/-- `old & mask_`, for a 64-bit counter. -/
theorem toNat_and_mask (x : UInt64) :
    (x &&& g.mask.toInt64.toUInt64).toNat = x.toNat % g.capacity :=
  toNat_and_mask64 x _ g.toNat_mask64

/-- `offset & mask_`, for a 32-bit counter. -/
theorem toNat_and_mask' (x : UInt32) :
    (x &&& g.mask.toUInt32).toNat = x.toNat % g.capacity :=
  toNat_and_mask32 x _ g.toNat_mask32

theorem toNat_ofNat_mod (p : ℕ) : (UInt64.ofNat p).toNat % g.capacity = p % g.capacity := by
  rw [UInt64.toNat_ofNat', Nat.mod_mod_of_dvd _ g.capacity_dvd64]

theorem toUInt32_ofNat_mod (p : ℕ) :
    (UInt64.ofNat p).toUInt32.toNat % g.capacity = p % g.capacity := by
  rw [UInt64.toNat_toUInt32, Nat.mod_mod_of_dvd _ g.capacity_dvd32, g.toNat_ofNat_mod]

/-- **The wrap test of `read`.**  It fires exactly when the record reaches the end
of the data area. -/
theorem wraps_iff (p s : ℕ) (hs : s < 2 ^ 16) :
    (UInt64.ofNat p &&& g.mask.toInt64.toUInt64) + UInt64.ofNat s ≠
        (UInt64.ofNat p + UInt64.ofNat s) &&& g.mask.toInt64.toUInt64 ↔
      g.capacity ≤ p % g.capacity + s := by
  have hge := g.capacity_ge
  have hle := g.capacity_le
  have hmod := Nat.mod_lt p g.capacity_pos
  have hsize : (UInt64.ofNat s).toNat = s :=
    UInt64.toNat_ofNat_of_lt' (hs.trans (by decide))
  have hleft : ((UInt64.ofNat p &&& g.mask.toInt64.toUInt64) + UInt64.ofNat s).toNat
      = p % g.capacity + s := by
    rw [UInt64.toNat_add, g.toNat_and_mask, g.toNat_ofNat_mod, hsize]
    omega
  have hright : ((UInt64.ofNat p + UInt64.ofNat s) &&& g.mask.toInt64.toUInt64).toNat
      = (p % g.capacity + s) % g.capacity := by
    rw [← UInt64.ofNat_add, g.toNat_and_mask, g.toNat_ofNat_mod, Nat.mod_add_mod]
  rw [Ne, ← UInt64.toNat_inj, hleft, hright]
  constructor
  · intro hne
    by_contra hlt
    exact hne (Nat.mod_eq_of_lt (by omega)).symm
  · intro hreach heq
    have := Nat.mod_lt (p % g.capacity + s) g.capacity_pos
    omega

end Geometry

/-! ### The copying loop -/

section CopyLoop

variable (g : Geometry)

/-- The number of bytes one round copies. -/
theorem toNat_nbytes (offset len : UInt32) :
    (min ((g.mask + 1).toUInt32 - (offset &&& g.mask.toUInt32)).toUInt64
      len.toUInt64).toUInt32.toNat
      = min (g.capacity - offset.toNat % g.capacity) len.toNat := by
  have hle := g.capacity_le
  have hmod := Nat.mod_lt offset.toNat g.capacity_pos
  have hroom : ((g.mask + 1).toUInt32 - (offset &&& g.mask.toUInt32)).toNat
      = g.capacity - offset.toNat % g.capacity := by
    rw [UInt32.toNat_sub, g.toNat_mask_add_one, g.toNat_and_mask']
    omega
  have hlen := len.toNat_lt
  rw [UInt64.toNat_toUInt32, UInt64.toNat_min]
  rw [UInt32.toNat_toUInt64, UInt32.toNat_toUInt64, hroom]
  omega

/-- A record that ends before the end of the data area, or exactly there, is one
copy. -/
theorem copyLoop_one {fuel dst : ℕ} {offset len : UInt32}
    (hfit : offset.toNat % g.capacity + len.toNat ≤ g.capacity) :
    copyLoop g.mask (fuel + 1) offset len dst
      = some [⟨dst, offset.toNat % g.capacity, len.toNat⟩] := by
  have hn := toNat_nbytes g offset len
  rw [Nat.min_eq_right (by omega)] at hn
  have hn' : _ = len := UInt32.toNat_inj.mp hn
  rw [copyLoop]
  simp only [hn', UInt32.sub_self, if_true, g.toNat_and_mask']

/-- A record that crosses the end of the data area is two copies. -/
theorem copyLoop_two {fuel dst : ℕ} {offset len : UInt32}
    (hcross : g.capacity < offset.toNat % g.capacity + len.toNat)
    (hlen : len.toNat ≤ g.capacity) :
    copyLoop g.mask (fuel + 2) offset len dst
      = some [⟨dst, offset.toNat % g.capacity, g.capacity - offset.toNat % g.capacity⟩,
          ⟨dst + (g.capacity - offset.toNat % g.capacity), 0,
            len.toNat - (g.capacity - offset.toNat % g.capacity)⟩] := by
  have hmod := Nat.mod_lt offset.toNat g.capacity_pos
  have hle := g.capacity_le
  have hn := toNat_nbytes g offset len
  rw [Nat.min_eq_left (by omega)] at hn
  rw [copyLoop]
  generalize hnb : (min ((g.mask + 1).toUInt32 - (offset &&& g.mask.toUInt32)).toUInt64
      len.toUInt64).toUInt32 = nbytes at hn
  have hrest : (len - nbytes).toNat
      = len.toNat - (g.capacity - offset.toNat % g.capacity) := by
    have := len.toNat_lt
    rw [UInt32.toNat_sub, hn]
    omega
  have hne : len - nbytes ≠ 0 := by
    intro h
    rw [h] at hrest
    have hzero : (0 : UInt32).toNat = 0 := rfl
    omega
  -- the offset now stands at the start of the data area, whatever its upper bits
  have hback : (offset + nbytes).toNat % g.capacity = 0 := by
    rw [UInt32.toNat_add, hn, Nat.mod_mod_of_dvd _ g.capacity_dvd32,
      add_sub_mod_self _ g.capacity_pos]
  rw [if_neg hne, copyLoop_one g (by omega), hn, hrest, hback, g.toNat_and_mask']
  rfl

/-- The copies `read` makes of `s` bytes at position `p` that reach the end. -/
def copiesAt (p s : ℕ) : List Memcpy :=
  if p % g.capacity + s = g.capacity then [⟨0, p % g.capacity, s⟩]
  else [⟨0, p % g.capacity, g.capacity - p % g.capacity⟩,
    ⟨g.capacity - p % g.capacity, 0, s - (g.capacity - p % g.capacity)⟩]

/-- Two rounds are enough. -/
theorem copyLoop_eq {fuel p s : ℕ} (hfuel : 2 ≤ fuel) (hs : s < 2 ^ 16)
    (hreach : g.capacity ≤ p % g.capacity + s) :
    copyLoop g.mask fuel (UInt64.ofNat p).toUInt32 (UInt64.ofNat s).toUInt32 0
      = some (copiesAt g p s) := by
  have hge := g.capacity_ge
  have hmod := Nat.mod_lt p g.capacity_pos
  have hoff := g.toUInt32_ofNat_mod p
  have hlen : (UInt64.ofNat s).toUInt32.toNat = s := by
    rw [UInt64.toNat_toUInt32, UInt64.toNat_ofNat_of_lt' (hs.trans (by decide))]
    omega
  obtain ⟨fuel, rfl⟩ := Nat.exists_eq_add_of_le' hfuel
  by_cases hend : p % g.capacity + s = g.capacity
  · rw [copyLoop_one g (by omega), copiesAt, if_pos hend, hoff, hlen]
  · rw [copyLoop_two g (by omega) (by omega), copiesAt, if_neg hend, hoff, hlen, Nat.zero_add]

/-- The loop leaves at most two copies behind, all of them inside the data area. -/
theorem copiesAt_bounds {p s : ℕ} (hs : s < 2 ^ 16) :
    (copiesAt g p s).length ≤ 2 ∧
      ∀ c ∈ copiesAt g p s, c.src + c.nbytes ≤ g.capacity := by
  have hge := g.capacity_ge
  have hmod := Nat.mod_lt p g.capacity_pos
  unfold copiesAt
  split
  case isTrue hend => simpa using hend.le
  case isFalse hend =>
    simp only [List.length_cons, List.length_nil, List.mem_cons, List.not_mem_nil,
      or_false, forall_eq_or_imp, forall_eq]
    omega

end CopyLoop

/-! ### Loads and stores -/

section Memory

variable {g : Geometry} {m : PerfMmap}

theorem load_data {i : ℕ} (hi : i < g.capacity) :
    m.load g (g.page + i) = some (m.data i) := by
  rw [PerfMmap.load, if_pos ⟨by omega, by omega⟩, Nat.add_sub_cancel_left]

theorem loadBytes_window {i n : ℕ} (h : i + n ≤ g.capacity) :
    loadBytes (m.load g) (g.page + i) n = some (window g.capacity m.data i n) := by
  have hload : loadBytes (m.load g) (g.page + i) (window g.capacity m.data i n).length
      = some (window g.capacity m.data i n) := by
    refine loadBytes_eq_some fun j hj => ?_
    rw [length_window] at hj
    rw [getElem?_window hj, Nat.add_assoc, load_data (by omega),
      Nat.mod_eq_of_lt (by omega)]
  rwa [length_window] at hload

/-- `header.size` of whatever lies at a position of the data area. -/
def sizeAt (g : Geometry) (m : PerfMmap) (p : ℕ) : ℕ :=
  leNat (window g.capacity m.data (p + 6) 2)

theorem sizeAt_lt (p : ℕ) : sizeAt g m p < 2 ^ 16 := by
  have := leNat_lt (window g.capacity m.data (p + 6) 2)
  rwa [length_window] at this

/-- The header never straddles the end of the data area: positions are multiples
of eight. -/
theorem header_fits {p : ℕ} (hp : 8 ∣ p) : p % g.capacity + 8 ≤ g.capacity := by
  have hmod := Nat.mod_lt p g.capacity_pos
  have hdvd : 8 ∣ p % g.capacity := (Nat.dvd_mod_iff g.dvd_capacity).mpr hp
  have hcap := g.dvd_capacity
  omega

theorem load_size {p : ℕ} (hp : 8 ∣ p) :
    (loadBytes (m.load g) (g.page + p % g.capacity + 6) 2).map leNat
      = some (sizeAt g m p) := by
  have hfit := header_fits (g := g) hp
  rw [Nat.add_assoc, loadBytes_window (by omega), Option.map_some, sizeAt,
    ← window_mod _ _ (p + 6), ← Nat.mod_add_mod, window_mod]

namespace PerfRingBuffer

variable (rb : PerfRingBuffer)

theorem overlay_of_lt {mem : ℕ → UInt8} {dst i : ℕ} {bs : List UInt8} (h : i < dst) :
    overlay mem dst bs i = mem i := if_neg (by omega)

theorem overlay_of_getElem? {mem : ℕ → UInt8} {dst i : ℕ} {bs : List UInt8} {b : UInt8}
    (hle : dst ≤ i) (h : bs[i - dst]? = some b) : overlay mem dst bs i = b := by
  rw [overlay, if_pos hle, h]
  rfl

theorem store_page {dst : ℕ} {bs : List UInt8}
    (h : dst + bs.length ≤ PERF_SAMPLE_MAX_SIZE) :
    (rb.store dst bs).PAGE_SIZE = rb.PAGE_SIZE := if_pos h

theorem cell_of_lt {i : ℕ} (h : i < PERF_SAMPLE_MAX_SIZE) :
    rb.cell i = rb.event_copy_ ⟨i, h⟩ := dif_pos h

theorem cell_store {dst i : ℕ} {bs : List UInt8} (h : i < PERF_SAMPLE_MAX_SIZE) :
    (rb.store dst bs).cell i = overlay rb.cell dst bs i := cell_of_lt _ h

/-- What one store leaves in `event_copy_`. -/
theorem cell_store_one {bs : List UInt8} {i : ℕ} (hi : i < bs.length)
    (hfit : i < PERF_SAMPLE_MAX_SIZE) : some ((rb.store 0 bs).cell i) = bs[i]? := by
  rw [cell_store rb hfit, List.getElem?_eq_getElem hi]
  exact congrArg some (overlay_of_getElem? (Nat.zero_le i) (List.getElem?_eq_getElem hi))

/-- What two stores in a row leave in `event_copy_`. -/
theorem cell_store_two (as bs : List UInt8) {i : ℕ} (hi : i < (as ++ bs).length)
    (hfit : i < PERF_SAMPLE_MAX_SIZE) :
    some (((rb.store 0 as).store as.length bs).cell i) = (as ++ bs)[i]? := by
  rw [cell_store _ hfit]
  rcases Nat.lt_or_ge i as.length with hlt | hge
  · rw [overlay_of_lt hlt, cell_store_one rb hlt hfit, List.getElem?_append_left hlt]
  · rw [List.length_append] at hi
    have hget : bs[i - as.length]? = some bs[i - as.length] :=
      List.getElem?_eq_getElem (by omega)
    rw [overlay_of_getElem? hge hget, List.getElem?_append_right hge, hget]

end PerfRingBuffer

/-- **The copies of a record.**  They stay inside the data area, leave everything
but `event_copy_` alone as long as the record fits there, and assemble the
record's bytes in order. -/
theorem runCopies_copiesAt (rb : PerfRingBuffer) {p s : ℕ}
    (hreach : g.capacity ≤ p % g.capacity + s) (hs : s < 2 ^ 16) :
    ∃ rb', runCopies (m.load g) g.page rb (copiesAt g p s) = some rb' ∧
      rb'.mask_ = rb.mask_ ∧
      (s ≤ PERF_SAMPLE_MAX_SIZE → rb'.PAGE_SIZE = rb.PAGE_SIZE ∧
        ∀ i < s, some (rb'.cell i) = (window g.capacity m.data p s)[i]?) := by
  have hge := g.capacity_ge
  have hmod := Nat.mod_lt p g.capacity_pos
  unfold copiesAt
  split
  case isTrue hend =>
    refine ⟨rb.store 0 (window g.capacity m.data p s), ?_, rfl, fun hfit => ⟨?_, ?_⟩⟩
    · have hload := loadBytes_window (m := m) (i := p % g.capacity) (n := s) hend.le
      rw [runCopies, hload, window_mod]
      rfl
    · exact rb.store_page (by simpa using hfit)
    · intro i hi
      exact rb.cell_store_one (by simpa using hi) (by omega)
  case isFalse hend =>
    -- the record is what is left before the end, then what starts the area again
    obtain ⟨k, hk⟩ : ∃ k, k = g.capacity - p % g.capacity := ⟨_, rfl⟩
    obtain ⟨t, rfl⟩ : ∃ t, s = k + t := ⟨s - k, by omega⟩
    rw [← hk, Nat.add_sub_cancel_left]
    have hback : (p + k) % g.capacity = 0 := hk ▸ add_sub_mod_self p g.capacity_pos
    have hfirst := loadBytes_window (g := g) (m := m) (i := p % g.capacity)
      (n := k) (by omega)
    have hsecond := loadBytes_window (g := g) (m := m) (i := 0) (n := t) (by omega)
    rw [window_mod] at hfirst
    rw [← hback, window_mod, hback] at hsecond
    have hlen := length_window g.capacity m.data p k
    refine ⟨(rb.store 0 (window g.capacity m.data p k)).store k
      (window g.capacity m.data (p + k) t), ?_, rfl, fun hfit => ⟨?_, ?_⟩⟩
    · rw [runCopies, hfirst, Option.bind_some, runCopies, hsecond]
      rfl
    · rw [PerfRingBuffer.store_page _ (by simpa using hfit),
        rb.store_page (by rw [hlen]; omega)]
    · intro i hi
      have htwo := rb.cell_store_two (window g.capacity m.data p k)
        (window g.capacity m.data (p + k) t) (i := i) (by simpa using hi) (by omega)
      rwa [hlen, ← window_add] at htwo

end Memory

/-! ### One call of `read` -/

section Read

variable {g : Geometry} {m : PerfMmap} {rb : PerfRingBuffer}

/-- The members `read` never writes are as the constructor left them. -/
structure PerfRingBuffer.Attached (g : Geometry) (rb : PerfRingBuffer) : Prop where
  mask_eq : rb.mask_ = g.mask
  page_eq : rb.PAGE_SIZE = UInt64.ofNat g.page

theorem attached_new (g : Geometry) : (PerfRingBuffer.new g).Attached g := ⟨rfl, rfl⟩

/-- A caught-up reader publishes its position and returns null. -/
theorem readFrom_caught_up {head : UInt64} (h : rb.prev_ = head) :
    rb.readFrom g head m = some ⟨none, [], rb, PerfRingBuffer.write_tail m rb.prev_⟩ := by
  rw [PerfRingBuffer.readFrom]
  exact if_neg (not_not_intro h)

/-- A reader that is behind loads the size of what lies at its position, makes the
copies that size asks for and moves past it. -/
theorem readFrom_behind {head : UInt64} {p : ℕ} (hA : rb.Attached g)
    (hprev : rb.prev_ = UInt64.ofNat p) (hp : 8 ∣ p) (hne : rb.prev_ ≠ head) :
    rb.readFrom g head m =
      if g.capacity ≤ p % g.capacity + sizeAt g m p then
        (runCopies (m.load g) g.page rb (copiesAt g p (sizeAt g m p))).map fun rb' =>
          ⟨some .copy, copiesAt g p (sizeAt g m p),
            { rb' with prev_ := UInt64.ofNat (p + sizeAt g m p) }, m⟩
      else
        some ⟨some (.ring (g.page + p % g.capacity)), [],
          { rb with prev_ := UInt64.ofNat (p + sizeAt g m p) }, m⟩ := by
  have hlt := sizeAt_lt (g := g) (m := m) p
  have hindex : (rb.prev_ &&& rb.mask_.toInt64.toUInt64).toNat = p % g.capacity := by
    rw [hA.mask_eq, hprev, g.toNat_and_mask, g.toNat_ofNat_mod]
  obtain ⟨bs, hbs, hsize⟩ := Option.map_eq_some_iff.mp (load_size (g := g) (m := m) hp)
  rw [PerfRingBuffer.readFrom]
  simp only [if_pos hne, hindex, hA.page_eq, g.toNat_page, hbs, Option.bind_some, hsize]
  rw [hA.mask_eq, hprev]
  by_cases hreach : g.capacity ≤ p % g.capacity + sizeAt g m p
  · have hsize' : (UInt64.ofNat (sizeAt g m p)).toNat = sizeAt g m p :=
      UInt64.toNat_ofNat_of_lt' (hlt.trans (by decide))
    have hmod := Nat.mod_lt p g.capacity_pos
    rw [if_pos ((g.wraps_iff p _ hlt).mpr hreach), if_pos hreach, hsize',
      copyLoop_eq g (by omega) hlt hreach, Option.bind_some, UInt64.ofNat_add]
  · rw [if_neg (mt (g.wraps_iff p _ hlt).mp hreach), if_neg hreach, UInt64.ofNat_add]

/-- What a call of `read` that hands out `bs` leaves behind. -/
structure HandsOut (g : Geometry) (m : PerfMmap) (p : ℕ) (bs : List UInt8)
    (res : ReadResult) : Prop where
  mmap_eq : res.mmap = m
  attached : res.buffer.Attached g
  prev_eq : res.buffer.prev_ = UInt64.ofNat (p + bs.length)
  event_eq : ∃ ptr, res.event = some ptr ∧
    ∀ i < bs.length, ptr.load g m res.buffer i = bs[i]?

/-- **The bytes at the reader's position are handed out**, as many as the header says: from
`event_copy_`, provided that they fit there, when they reach the end of the data area, and
from the data area itself when they do not. -/
theorem readFrom_window {head : UInt64} {p : ℕ} (hA : rb.Attached g)
    (hprev : rb.prev_ = UInt64.ofNat p) (hp : 8 ∣ p) (hne : rb.prev_ ≠ head)
    (hfit : g.capacity ≤ p % g.capacity + sizeAt g m p → sizeAt g m p ≤ PERF_SAMPLE_MAX_SIZE) :
    ∃ res, rb.readFrom g head m = some res ∧
      HandsOut g m p (window g.capacity m.data p (sizeAt g m p)) res ∧
      if g.capacity ≤ p % g.capacity + sizeAt g m p then
        res.event = some .copy ∧ res.copies = copiesAt g p (sizeAt g m p)
      else res.event = some (.ring (g.page + p % g.capacity)) ∧ res.copies = [] := by
  rw [readFrom_behind hA hprev hp hne]
  have hlen := length_window g.capacity m.data p (sizeAt g m p)
  by_cases hreach : g.capacity ≤ p % g.capacity + sizeAt g m p
  · obtain ⟨rb', hrun, hmask, hcopy⟩ :=
      runCopies_copiesAt (m := m) rb hreach (sizeAt_lt p)
    obtain ⟨hpage, hcell⟩ := hcopy (hfit hreach)
    rw [if_pos hreach, hrun]
    refine ⟨_, rfl, ⟨rfl, ⟨hmask.trans hA.mask_eq, hpage.trans hA.page_eq⟩, ?_,
      .copy, rfl, fun i hi => ?_⟩, ?_⟩
    · rw [hlen]
    · rw [hlen] at hi
      have hi64 : i < PERF_SAMPLE_MAX_SIZE := Nat.lt_of_lt_of_le hi (hfit hreach)
      rw [EventPtr.load, dif_pos hi64, ← hcell i hi, PerfRingBuffer.cell_of_lt rb' hi64]
    · rw [if_pos hreach]
      exact ⟨rfl, rfl⟩
  · rw [if_neg hreach]
    refine ⟨_, rfl, ⟨rfl, ⟨hA.mask_eq, hA.page_eq⟩, ?_, _, rfl, fun i hi => ?_⟩, ?_⟩
    · rw [hlen]
    · rw [hlen] at hi
      have hindex : (p + i) % g.capacity = p % g.capacity + i := by
        rw [← Nat.mod_add_mod, Nat.mod_eq_of_lt (by omega)]
      rw [EventPtr.load, Nat.add_assoc, load_data (by omega), getElem?_window hi, hindex]
    · rw [if_neg hreach]
      exact ⟨rfl, rfl⟩

/-- **One record is handed out whole.**  The record at the reader's position comes
back byte for byte, from the data area or from `event_copy_`, provided that it
fits `event_copy_` when it reaches the end of the data area. -/
theorem readFrom_record {head : UInt64} {p : ℕ} {r : Record} (hA : rb.Attached g)
    (hprev : rb.prev_ = UInt64.ofNat p) (hp : 8 ∣ p) (hne : rb.prev_ ≠ head)
    (hmem : window g.capacity m.data p r.size = r.bytes)
    (hfit : g.capacity ≤ p % g.capacity + r.size → r.size ≤ PERF_SAMPLE_MAX_SIZE) :
    ∃ res, rb.readFrom g head m = some res ∧ HandsOut g m p r.bytes res := by
  have hsize : sizeAt g m p = r.size := by
    rw [sizeAt, ← window_slice (a := 6) (n := 2) (s := r.size) r.size_ge, hmem]
    exact r.size_eq
  obtain ⟨res, hres, hout, -⟩ := readFrom_window hA hprev hp hne (hsize.symm ▸ hfit)
  rw [hsize, hmem] at hout
  exact ⟨res, hres, hout⟩

/-- **`read` refines a read of one byte after another**, each at its position modulo the
capacity.  For any contents of the data area, any 64-bit position that is a multiple of
eight, and any size that the header there says, as long as it fits `event_copy_` when it
reaches the end:

* the bytes behind the pointer are those at `prev_`, `prev_ + 1`, … modulo the capacity;
* two rounds of the copying loop are enough, and no round leaves the data area;
* the pointer is into the data area only if all the bytes are there in one piece;
* `prev_` moves on by the size, modulo 2^64. -/
theorem read_modular (hA : rb.Attached g) (hdvd : 8 ∣ rb.prev_.toNat)
    (hne : m.data_head ≠ rb.prev_) {s : ℕ} (hs : s = sizeAt g m rb.prev_.toNat)
    (hfit : g.capacity ≤ rb.prev_.toNat % g.capacity + s → s ≤ PERF_SAMPLE_MAX_SIZE) :
    ∃ res ptr, rb.read g m = some res ∧ res.event = some ptr ∧
      (∀ i < s, ptr.load g m res.buffer i
        = some (m.data ((rb.prev_.toNat + i) % g.capacity))) ∧
      (ptr = .copy → copyLoop rb.mask_ 2 rb.prev_.toUInt32 (UInt64.ofNat s).toUInt32 0
        = some res.copies) ∧
      res.copies.length ≤ 2 ∧ (∀ c ∈ res.copies, c.src + c.nbytes ≤ g.capacity) ∧
      (∀ addr, ptr = .ring addr → addr = g.page + rb.prev_.toNat % g.capacity ∧
        rb.prev_.toNat % g.capacity + s ≤ g.capacity) ∧
      res.buffer.prev_ = rb.prev_ + UInt64.ofNat s := by
  subst hs
  have hprev : rb.prev_ = UInt64.ofNat rb.prev_.toNat := UInt64.ofNat_toNat.symm
  obtain ⟨res, hres, hout, hcopies⟩ := readFrom_window hA hprev hdvd (Ne.symm hne) hfit
  have hlen := length_window g.capacity m.data rb.prev_.toNat (sizeAt g m rb.prev_.toNat)
  obtain ⟨ptr, hptr, hload⟩ := hout.event_eq
  have hnext : res.buffer.prev_ = rb.prev_ + UInt64.ofNat (sizeAt g m rb.prev_.toNat) := by
    rw [hout.prev_eq, hlen, UInt64.ofNat_add, ← hprev]
  rw [hlen] at hload
  refine ⟨res, ptr, hres, hptr, fun i hi => (hload i hi).trans (getElem?_window hi), ?_⟩
  rw [hptr, Option.some.injEq, Option.some.injEq] at hcopies
  by_cases hreach : g.capacity ≤ rb.prev_.toNat % g.capacity + sizeAt g m rb.prev_.toNat
  · rw [if_pos hreach] at hcopies
    obtain ⟨rfl, hmade⟩ := hcopies
    have hloop := copyLoop_eq g (le_refl 2) (sizeAt_lt rb.prev_.toNat) hreach
    rw [← hA.mask_eq, ← hprev, ← hmade] at hloop
    obtain ⟨hrounds, hinside⟩ := copiesAt_bounds g (sizeAt_lt (m := m) rb.prev_.toNat)
    rw [← hmade] at hrounds hinside
    refine ⟨fun _ => hloop, hrounds, hinside, ?_, hnext⟩
    rintro _ ⟨⟩
  · rw [if_neg hreach] at hcopies
    obtain ⟨rfl, hmade⟩ := hcopies
    rw [hmade]
    refine ⟨?_, Nat.zero_le 2, List.forall_mem_nil _, ?_, hnext⟩
    · rintro ⟨⟩
    · rintro _ ⟨⟩
      exact ⟨rfl, by omega⟩

/-- A reader eight positions before its 64-bit counter wraps. -/
def atLastWord : PerfRingBuffer := { PerfRingBuffer.new .x86 with prev_ := 0xfffffffffffffff8 }

/-- A record of 64 bytes whose header is the last eight bytes of the data area. -/
def crossingRecord : PerfMmap :=
  ⟨56, 0, fun i => if i = 2 ^ 18 - 2 then 64 else if i = 2 ^ 18 - 1 then 0 else UInt8.ofNat i⟩

/-- There the counter wraps, the 32-bit offset wraps and the record crosses the end. -/
theorem read_crossing : ∃ res ptr, atLastWord.read .x86 crossingRecord = some res ∧
    res.event = some ptr ∧
    (∀ i < 64, ptr.load .x86 crossingRecord res.buffer i
      = some (crossingRecord.data ((0xfffffffffffffff8 + i) % 2 ^ 18))) ∧
    res.copies.length ≤ 2 ∧ res.buffer.prev_ = 56 := by
  have hA : atLastWord.Attached .x86 := ⟨rfl, rfl⟩
  obtain ⟨res, ptr, hres, hptr, hload, -, hrounds, -, -, hnext⟩ :=
    read_modular (m := crossingRecord) (s := 64) hA (by decide) (by decide) (by decide) (by decide)
  exact ⟨res, ptr, hres, hptr, hload, hrounds, hnext⟩

end Read

end AccessSampling
