import AccessSampling.Locking
import AccessSampling.ParseMetric

/-!
# The size of the event buffers

The plugin reads the number of events a buffer has room for from the environment, once, in
its constructor, and prints how many megabytes such a buffer takes.

* `extract` — stream extraction into a `std::size_t`.  It stores zero when there is no
  number, the maximum when the number is too large, and nothing at all when there are only
  blanks; a minus sign is accepted, and the number wraps.
* `access_sampling` — the constructor; it does not end when the assertion in `to_mb`
  fails.
* `usable_iff` — which values of the variable give buffers that can be used.
-/

namespace AccessSampling

open Foundation

/-- `sstream >> value`, for a `std::size_t`. -/
def extract (str : List Char) (value : UInt64) : UInt64 :=
  -- without anything but blanks, extraction does not begin
  if str.dropWhile isspace = [] then value
  else match scan str with
    | (negative, digits) =>
        if digits = [] then 0
        else if 2 ^ 64 ≤ decimal digits then UInt64.ofNat (2 ^ 64 - 1)
        else if negative then -UInt64.ofNat (decimal digits) else UInt64.ofNat (decimal digits)

/-- `read_buffer_size`, `size_string` being what `std::getenv` returns. -/
def read_buffer_size (size_string : Option (List Char)) : UInt64 :=
  let buffer_size := 5000000
  match size_string with
  | some size_string => extract size_string buffer_size
  | none => buffer_size

/-- `to_mb`; `none` when its assertion fails. -/
def to_mb (nbytes : UInt64) : Option UInt64 :=
  if 0 < nbytes then some (nbytes / (1024 * 1024)) else none

/-- The constructor of `access_sampling`: the `buffer_size_` it ends with. -/
def access_sampling (size_string : Option (List Char)) (sizeof_AccessEvent : UInt64) :
    Option UInt64 :=
  let buffer_size_ := read_buffer_size size_string
  (to_mb (buffer_size_ * sizeof_AccessEvent)).map fun _ => buffer_size_

/-! ### What is extracted -/

section Extract

variable {str : List Char} {value : UInt64}

theorem extract_of_blank (h : ∀ c ∈ str, isspace c) : extract str value = value :=
  if_pos (List.dropWhile_eq_nil_iff.mpr h)

/-- A string that is not blank begins with a number, or makes extraction fail. -/
theorem extract_of_not_blank (h : ¬ ∀ c ∈ str, isspace c) :
    extract str value =
      if (scan str).2 = [] then 0
      else if 2 ^ 64 ≤ decimal (scan str).2 then UInt64.ofNat (2 ^ 64 - 1)
      else if (scan str).1 then -UInt64.ofNat (decimal (scan str).2)
      else UInt64.ofNat (decimal (scan str).2) :=
  if_neg (mt List.dropWhile_eq_nil_iff.mp h)

theorem not_blank_of_reads {negative : Bool} {digits : List Char}
    (h : Reads str negative digits) : ¬ ∀ c ∈ str, isspace c := by
  obtain ⟨blanks, sign, rest, rfl, -, -, hne, hdigits, -⟩ := h
  obtain ⟨c, hc⟩ := List.exists_mem_of_ne_nil digits hne
  exact fun hall => not_isspace_of_isDigit (hdigits c hc) (hall c (by simp [hc]))

/-- **The number that is extracted**, when there is one. -/
theorem toNat_extract {negative : Bool} {digits : List Char} (h : Reads str negative digits) :
    (extract str value).toNat =
      if 2 ^ 64 ≤ decimal digits then 2 ^ 64 - 1
      else if negative then (2 ^ 64 - decimal digits) % 2 ^ 64 else decimal digits := by
  obtain ⟨hscan, hne⟩ := reads_iff.mp h
  rw [extract_of_not_blank (not_blank_of_reads h), hscan, if_neg hne]
  split
  case isTrue => rfl
  case isFalse hlt =>
    have hnat : (UInt64.ofNat (decimal digits)).toNat = decimal digits :=
      UInt64.toNat_ofNat_of_lt' (Nat.lt_of_not_le hlt)
    cases negative with
    | false => exact hnat
    | true =>
        show (-UInt64.ofNat (decimal digits)).toNat = _
        rw [UInt64.toNat_neg, hnat]
        rfl

/-- Extraction fails where there is no number. -/
theorem extract_of_not_reads (hblank : ¬ ∀ c ∈ str, isspace c)
    (h : ¬ ∃ negative digits, Reads str negative digits) : extract str value = 0 := by
  rw [extract_of_not_blank hblank]
  refine if_pos ?_
  by_contra hne
  exact h ⟨_, _, reads_iff.mpr ⟨rfl, hne⟩⟩

end Extract

/-! ### The capacities of the buffers -/

section Capacities

variable {T : TraceEvents} {g : Geometry} {pfm : Pfm} {buffer_size_ : UInt64}

/-- Every buffer has room for `buffer_size_` events. -/
theorem Locking.capacities_of_exec {es : List LockingEvent} {s : Locking T}
    (hrun : (lockingMachine g pfm buffer_size_ T).exec (.init T) es = some s) :
    ∀ c ∈ s.capacities, c = buffer_size_ := by
  refine (lockingMachine g pfm buffer_size_ T).exec_preserves
    (I := fun s => ∀ c ∈ s.capacities, c = buffer_size_) (fun s e s' hinv hnext c hc => ?_)
    (fun c hc => absurd hc List.not_mem_nil) hrun
  rcases (Locking.step_of_next hnext).capacities with hcap | hcap
  · exact hinv c (hcap ▸ hc)
  · rw [hcap, List.mem_append, List.mem_singleton] at hc
    exact hc.elim (hinv c) id

end Capacities

/-! ### The result -/

/-- The constructor ends, its product does not wrap, and every buffer that is created later
has room for an event. -/
def Usable (size_string : Option (List Char)) (sizeof_AccessEvent : UInt64) : Prop :=
  ∃ buffer_size_, access_sampling size_string sizeof_AccessEvent = some buffer_size_ ∧
    0 < buffer_size_.toNat ∧ buffer_size_.toNat * sizeof_AccessEvent.toNat < 2 ^ 64 ∧
    ∀ (g : Geometry) (pfm : Pfm) (T : TraceEvents) (es : List LockingEvent) (s : Locking T),
      (lockingMachine g pfm buffer_size_ T).exec (.init T) es = some s →
      ∀ capacity ∈ s.capacities, 0 < capacity.toNat

/-- The variable is not set, or blank, and the default fits; or it begins with a number
other than zero, and the number fits, or what is left to 2^64 fits if the number is
negative.  A number beyond 64 bits fits events of one byte. -/
def Sensible (size_string : Option (List Char)) (sizeof_AccessEvent : ℕ) : Prop :=
  match size_string with
  | none => 5000000 * sizeof_AccessEvent < 2 ^ 64
  | some str =>
      ((∀ c ∈ str, isspace c) ∧ 5000000 * sizeof_AccessEvent < 2 ^ 64) ∨
      ∃ negative digits, Reads str negative digits ∧ 0 < decimal digits ∧
        if 2 ^ 64 ≤ decimal digits then sizeof_AccessEvent = 1
        else if negative then (2 ^ 64 - decimal digits) * sizeof_AccessEvent < 2 ^ 64
        else decimal digits * sizeof_AccessEvent < 2 ^ 64

section Usable

variable {size_string : Option (List Char)} {sizeof_AccessEvent : UInt64}

/-- The constructor goes by the number it reads. -/
theorem usable_iff_read (hsizeof : 0 < sizeof_AccessEvent.toNat) :
    Usable size_string sizeof_AccessEvent ↔ 0 < (read_buffer_size size_string).toNat ∧
      (read_buffer_size size_string).toNat * sizeof_AccessEvent.toNat < 2 ^ 64 := by
  unfold Usable access_sampling
  constructor
  · rintro ⟨n, hn, hpos, hlt, -⟩
    obtain ⟨-, -, rfl⟩ := Option.map_eq_some_iff.mp hn
    exact ⟨hpos, hlt⟩
  · rintro ⟨hpos, hlt⟩
    have hproduct : (read_buffer_size size_string * sizeof_AccessEvent).toNat
        = (read_buffer_size size_string).toNat * sizeof_AccessEvent.toNat := by
      rw [UInt64.toNat_mul, Nat.mod_eq_of_lt hlt]
    have hassert : 0 < read_buffer_size size_string * sizeof_AccessEvent := by
      rw [UInt64.lt_iff_toNat_lt, hproduct]
      exact Nat.mul_pos hpos hsizeof
    have hmb : to_mb (read_buffer_size size_string * sizeof_AccessEvent) = some _ :=
      if_pos hassert
    refine ⟨_, congrArg (Option.map fun _ => read_buffer_size size_string) hmb, hpos, hlt,
      fun g pfm T es s hrun capacity hcapacity => ?_⟩
    rw [Locking.capacities_of_exec hrun capacity hcapacity]
    exact hpos

/-- A number that is not zero, and not too large for the events. -/
theorem usable_number {size d : ℕ} (hsize : 0 < size) (negative : Bool) :
    (0 < (if 2 ^ 64 ≤ d then 2 ^ 64 - 1
          else if negative then (2 ^ 64 - d) % 2 ^ 64 else d) ∧
      (if 2 ^ 64 ≤ d then 2 ^ 64 - 1
        else if negative then (2 ^ 64 - d) % 2 ^ 64 else d) * size < 2 ^ 64) ↔
      0 < d ∧ if 2 ^ 64 ≤ d then size = 1
        else if negative then (2 ^ 64 - d) * size < 2 ^ 64 else d * size < 2 ^ 64 := by
  by_cases hlarge : 2 ^ 64 ≤ d
  · simp only [if_pos hlarge]
    omega
  · simp only [if_neg hlarge]
    cases negative with
    | false => simp
    | true =>
        simp only [if_true]
        by_cases hzero : d = 0
        · simp [hzero]
        · have hmod : (2 ^ 64 - d) % 2 ^ 64 = 2 ^ 64 - d := Nat.mod_eq_of_lt (by omega)
          have hpos : 0 < 2 ^ 64 - d := by omega
          rw [hmod]
          exact and_congr_left fun _ => iff_of_true hpos (Nat.pos_of_ne_zero hzero)

/-- **The buffer size is usable** exactly for the sensible values of the variable. -/
theorem usable_iff (hsizeof : 0 < sizeof_AccessEvent.toNat) :
    Usable size_string sizeof_AccessEvent ↔
      Sensible size_string sizeof_AccessEvent.toNat := by
  rw [usable_iff_read hsizeof]
  have hdefault : (5000000 : UInt64).toNat = 5000000 := rfl
  cases size_string with
  | none =>
      rw [read_buffer_size, hdefault]
      exact and_iff_right (by decide)
  | some str =>
      rw [read_buffer_size, Sensible]
      by_cases hblank : ∀ c ∈ str, isspace c
      · rw [extract_of_blank hblank, hdefault, and_iff_right (by decide)]
        constructor
        · exact fun hlt => Or.inl ⟨hblank, hlt⟩
        · rintro (⟨-, hlt⟩ | ⟨negative, digits, hreads, -⟩)
          · exact hlt
          · exact absurd hblank (not_blank_of_reads hreads)
      · by_cases hnumber : ∃ negative digits, Reads str negative digits
        · obtain ⟨negative, digits, hreads⟩ := hnumber
          rw [toNat_extract hreads, usable_number hsizeof negative]
          constructor
          · exact fun h => Or.inr ⟨negative, digits, hreads, h⟩
          · rintro (⟨hall, -⟩ | ⟨negative', digits', hreads', h⟩)
            · exact absurd hall hblank
            · obtain ⟨rfl, rfl⟩ := Prod.mk.inj
                ((reads_iff.mp hreads).1.symm.trans (reads_iff.mp hreads').1)
              exact h
        · rw [extract_of_not_reads hblank hnumber]
          refine iff_of_false (fun h => absurd h.1 (by decide)) ?_
          rintro (⟨hall, -⟩ | ⟨negative, digits, hreads, -⟩)
          · exact hblank hall
          · exact hnumber ⟨negative, digits, hreads⟩

end Usable

/-- Events of 40 bytes, and room for a million of them. -/
theorem usable_million : Usable (some "1000000".toList) 40 := by
  refine (usable_iff (by decide)).mpr (Or.inr ⟨false, "1000000".toList, ?_, by decide, by decide⟩)
  exact reads_iff.mpr ⟨rfl, by decide⟩

/-- A value that is no number leaves no room at all: the assertion fails. -/
theorem not_usable_word :
    ¬ (∀ size_string, Usable size_string 40) ∧
      access_sampling (some "many".toList) 40 = none := by
  have hnone : access_sampling (some "many".toList) 40 = none := rfl
  refine ⟨fun h => ?_, hnone⟩
  obtain ⟨n, hn, -⟩ := h (some "many".toList)
  rw [hnone] at hn
  cases hn

end AccessSampling
