import AccessSampling.AddMetric

/-!
# What is advertised can be added

Score-P asks `get_metric_properties` for a metric before it adds it.  The answer comes from
`is_metric_supported`, which asks libpfm for the event; `add_metric` then asks libpfm for
the encoding of the same event, in `get_perf_event`.

`Pfm.Knows` is what libpfm promises of the two calls.  `pfm_find_event` has several
negative error codes, of which `is_metric_supported` tests for one only:
`advertised_iff_addable` says that this is all that sets the two answers apart.

`Pfm.Knows` compares each of the two calls with the table of libpfm, and neither with the
other.  Which of its error codes libpfm returns for an event it does not know is left open, and is
the condition of the result.
-/

namespace AccessSampling

/-- A `scorep::plugin::metric_property`, with the two settings the plugin makes. -/
structure MetricProperty where
  name : List Char
  description : List Char
  unit : List Char
  absolute_point : Bool
  value_uint : Bool

/-- `access_sampling::get_metric_properties`. -/
def get_metric_properties (pfm : Pfm) (metric_name : List Char) :
    Except Exception (List MetricProperty) :=
  match parse_metric metric_name with
  | .error e => .error e
  | .ok (event, _) =>
      if is_metric_supported pfm event then
        .ok [{ name := metric_name, description := [], unit := "Address".toList
               absolute_point := true, value_uint := true }]
      else .ok []

/-- libpfm finds the events of its table, and no others, and it encodes these and no
others. -/
structure Pfm.Knows (pfm : Pfm) (table : List Char → Prop) : Prop where
  find_event : ∀ event, 0 ≤ pfm.find_event event ↔ table event
  os_event_encoding : ∀ event, (pfm.os_event_encoding event).isSome ↔ table event

/-- `PFM_ERR_NOTSUPP`, the one error code that `is_metric_supported` tests for. -/
def PFM_ERR_NOTSUPP : ℤ := -1

/-- The metric is advertised. -/
def Advertised (pfm : Pfm) (metric : List Char) : Prop :=
  ∃ properties, get_metric_properties pfm metric = .ok properties ∧ properties ≠ []

section Advertised

variable {pfm : Pfm} {table : List Char → Prop} {metric name : List Char} {period : UInt32}

theorem advertised_iff (hparse : parse_metric metric = .ok (name, period)) :
    Advertised pfm metric ↔ is_metric_supported pfm name := by
  simp only [Advertised, get_metric_properties, hparse]
  split
  case isTrue h => exact iff_of_true ⟨_, rfl, List.cons_ne_nil _ _⟩ h
  case isFalse h =>
    refine iff_of_false ?_ h
    rintro ⟨properties, hproperties, hne⟩
    cases hproperties
    exact hne rfl

/-- `is_metric_supported` asks libpfm for the event behind a name. -/
theorem is_metric_supported_iff :
    is_metric_supported pfm name ↔
      ∃ event, supported_event name = .ok event ∧ pfm.find_event event ≠ PFM_ERR_NOTSUPP := by
  unfold is_metric_supported
  cases supported_event name with
  | error e => simp
  | ok event => simp [PFM_ERR_NOTSUPP]

/-- `get_perf_event` asks libpfm for the encoding of the same event. -/
theorem get_perf_event_returns (hknows : pfm.Knows table) (period : UInt64) :
    (∃ attr, get_perf_event pfm name period = .ok attr) ↔
      ∃ event, supported_event name = .ok event ∧ table event := by
  simp only [get_perf_event_eq_ok]
  constructor
  · rintro ⟨_, event, config, hevent, hconfig, rfl⟩
    exact ⟨event, hevent, (hknows.os_event_encoding event).mp (Option.isSome_of_eq_some hconfig)⟩
  · rintro ⟨event, hevent, htable⟩
    obtain ⟨config, hconfig⟩ :=
      Option.isSome_iff_exists.mp ((hknows.os_event_encoding event).mpr htable)
    exact ⟨_, event, config, hevent, hconfig, rfl⟩

/-- **What is advertised can be added**, and the other way round, unless libpfm does not
know the event and says so with another error code than `PFM_ERR_NOTSUPP`. -/
theorem advertised_iff_addable (hknows : pfm.Knows table)
    (hparse : parse_metric metric = .ok (name, period)) :
    (Advertised pfm metric ↔ ∃ attr, get_perf_event pfm name period.toUInt64 = .ok attr) ↔
      ∀ event, supported_event name = .ok event →
        table event ∨ pfm.find_event event = PFM_ERR_NOTSUPP := by
  rw [advertised_iff hparse, is_metric_supported_iff, get_perf_event_returns hknows]
  constructor
  · intro h event hevent
    by_contra hbad
    obtain ⟨htable, hfind⟩ := not_or.mp hbad
    obtain ⟨event', hevent', htable'⟩ := h.mp ⟨event, hevent, hfind⟩
    cases hevent.symm.trans hevent'
    exact htable htable'
  · intro h
    constructor
    · rintro ⟨event, hevent, hfind⟩
      exact ⟨event, hevent, (h event hevent).resolve_right hfind⟩
    · rintro ⟨event, hevent, htable⟩
      have hfound : 0 ≤ pfm.find_event event := (hknows.find_event event).mpr htable
      refine ⟨event, hevent, fun hfind => ?_⟩
      rw [hfind] at hfound
      exact absurd hfound (by decide)

end Advertised

/-- The two events of the plugin. -/
theorem Pfm.intel_knows : Pfm.intel.Knows fun event =>
    event = "MEM_TRANS_RETIRED.LOAD_LATENCY".toList ∨
      event = "MEM_UOPS_RETIRED.ALL_STORES".toList where
  find_event event := by
    simp only [Pfm.intel]
    split
    case isTrue hload => exact iff_of_true (by decide) (Or.inl hload)
    case isFalse hload =>
      split
      case isTrue hstore => exact iff_of_true (by decide) (Or.inr hstore)
      case isFalse hstore => exact iff_of_false (by decide) (not_or.mpr ⟨hload, hstore⟩)
  os_event_encoding event := by
    simp only [Pfm.intel]
    split
    case isTrue hload => exact iff_of_true rfl (Or.inl hload)
    case isFalse hload =>
      split
      case isTrue hstore => exact iff_of_true rfl (Or.inr hstore)
      case isFalse hstore => exact iff_of_false (by decide) (not_or.mpr ⟨hload, hstore⟩)

/-- Where libpfm knows the event, the metric is advertised because it can be added. -/
theorem advertised_load : Advertised .intel "LOAD@1000".toList := by
  have hparse : parse_metric "LOAD@1000".toList = .ok ("LOAD".toList, 1000) := by rfl
  have hevent : supported_event "LOAD".toList
      = .ok "MEM_TRANS_RETIRED.LOAD_LATENCY".toList := by rfl
  refine ((advertised_iff_addable Pfm.intel_knows hparse).mpr fun event h => ?_).mpr
    ⟨_, get_perf_event_eq_ok.mpr ⟨_, _, hevent, rfl, rfl⟩⟩
  cases hevent.symm.trans h
  exact Or.inl (Or.inl rfl)

/-- A libpfm that knows neither event, on a machine of another make. -/
def Pfm.other : Pfm where
  find_event _ := -4
  os_event_encoding _ := none
  attr_size := 128

/-- There `Load` is advertised, and cannot be added. -/
theorem advertised_not_addable :
    Pfm.other.Knows (fun _ => False) ∧ Advertised .other "Load@1000".toList ∧
      ¬ ∃ attr, get_perf_event .other "Load".toList 1000 = .ok attr := by
  have hknows : Pfm.other.Knows fun _ => False :=
    ⟨fun _ => iff_of_false (show ¬ (0 : ℤ) ≤ -4 by decide) id,
      fun _ => iff_of_false Bool.false_ne_true id⟩
  refine ⟨hknows, ⟨_, rfl, List.cons_ne_nil _ _⟩, fun h => ?_⟩
  obtain ⟨event, -, hfalse⟩ := (get_perf_event_returns hknows 1000).mp h
  exact hfalse

end AccessSampling
