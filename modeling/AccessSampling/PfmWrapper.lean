import AccessSampling.Utils
import Mathlib.Data.Int.Notation

/-!
# `PfmWrapper`

The attributes of a perf event, as `get_perf_event` fills them in.  The two events
the plugin knows are looked up under their lower-cased names; their encoding comes
from libpfm, which is a parameter.

Three of the attributes decide how the rest of the plugin has to work: `disabled`, so an
event takes no samples until `enable ()`; `wakeup_events`, so every sample sends a
signal; and `mmap`, so that the rings get records which are not samples.
-/

namespace AccessSampling

/-- What the plugin uses of libpfm and of the header of `perf_event_open`. -/
structure Pfm where
  /-- `pfm_find_event`: an index, or a negative error code. -/
  find_event : List Char → ℤ
  /-- The `config` that `pfm_get_os_event_encoding` yields; `none` is any return code
  but `PFM_SUCCESS`. -/
  os_event_encoding : List Char → Option UInt64
  /-- `sizeof (PerfEventAttribute)`. -/
  attr_size : UInt32

/-- A libpfm that knows the two events of the plugin. -/
def Pfm.intel : Pfm where
  find_event event :=
    if event = "MEM_TRANS_RETIRED.LOAD_LATENCY".toList then 0
    else if event = "MEM_UOPS_RETIRED.ALL_STORES".toList then 1 else -4
  os_event_encoding event :=
    if event = "MEM_TRANS_RETIRED.LOAD_LATENCY".toList then some 0x1cd
    else if event = "MEM_UOPS_RETIRED.ALL_STORES".toList then some 0x82d0 else none
  attr_size := 128

def PERF_TYPE_RAW : UInt32 := 4
def PERF_SAMPLE_IP : UInt64 := 1
def PERF_SAMPLE_ADDR : UInt64 := 8
def PERF_SAMPLE_DATA_SRC : UInt64 := 32768

/-- The fields of `struct perf_event_attr` that the plugin sets. -/
structure PerfEventAttribute where
  disabled : Bool
  exclude_kernel : Bool
  exclude_hv : Bool
  type : UInt32
  sample_type : UInt64
  precise_ip : ℕ
  mmap : Bool
  wakeup_events : UInt32
  size : UInt32
  sample_period : UInt64
  config : UInt64
  deriving DecidableEq

/-- `PfmWrapper::supported_events_`. -/
def supported_events_ : List (List Char × List Char) :=
  [("load".toList, "MEM_TRANS_RETIRED.LOAD_LATENCY".toList),
    ("store".toList, "MEM_UOPS_RETIRED.ALL_STORES".toList)]

/-- `supported_events_.at (to_lower (metric_name))`. -/
def supported_event (metric_name : List Char) : Except Exception (List Char) :=
  match supported_events_.lookup (to_lower metric_name) with
  | some event => .ok event
  | none => .error (.out_of_range "map::at")

/-- `PfmWrapper::is_metric_supported`. -/
def is_metric_supported (pfm : Pfm) (metric_name : List Char) : Bool :=
  match supported_event metric_name with
  | .ok event => decide (pfm.find_event event ≠ -1)
  | .error _ => false

/-- The attributes `get_perf_event` fills in. -/
def samplingAttribute (size : UInt32) (sample_period config : UInt64) : PerfEventAttribute where
  disabled := true
  exclude_kernel := true
  exclude_hv := true
  type := PERF_TYPE_RAW
  sample_type := PERF_SAMPLE_IP ||| PERF_SAMPLE_ADDR ||| PERF_SAMPLE_DATA_SRC
  precise_ip := 2
  mmap := true
  wakeup_events := 1
  size := size
  sample_period := sample_period
  config := config

/-- `PfmWrapper::get_perf_event`. -/
def get_perf_event (pfm : Pfm) (metric_name : List Char) (sample_period : UInt64) :
    Except Exception PerfEventAttribute :=
  match supported_event metric_name with
  | .error e => .error e
  | .ok event =>
      match pfm.os_event_encoding event with
      | none => .error (.runtime_error "pfm could not find event encoding")
      | some config => .ok (samplingAttribute pfm.attr_size sample_period config)

theorem get_perf_event_eq_ok {pfm : Pfm} {name : List Char} {period : UInt64}
    {attr : PerfEventAttribute} :
    get_perf_event pfm name period = .ok attr ↔
      ∃ event config, supported_event name = .ok event ∧
        pfm.os_event_encoding event = some config ∧
        attr = samplingAttribute pfm.attr_size period config := by
  unfold get_perf_event
  constructor
  · intro h
    split at h
    case h_1 => cases h
    case h_2 event hevent =>
      split at h
      case h_1 => cases h
      case h_2 config hconfig =>
        cases h
        exact ⟨event, config, hevent, hconfig, rfl⟩
  · rintro ⟨event, config, hevent, hconfig, rfl⟩
    simp only [hevent, hconfig]

/-- Every event is opened disabled. -/
theorem disabled_of_get_perf_event {pfm : Pfm} {name : List Char} {period : UInt64}
    {attr : PerfEventAttribute} (h : get_perf_event pfm name period = .ok attr) :
    attr.disabled = true := by
  obtain ⟨event, config, -, -, rfl⟩ := get_perf_event_eq_ok.mp h
  rfl

end AccessSampling
