import AccessSampling.AddMetric
import AccessSampling.Foundation.Tokens
import Mathlib.Data.List.TakeWhile

/-!
# What `parse_metric` accepts

`parse_metric` cuts a string at `@` and takes the second of two tokens as a number.  Both
steps are more lenient than the check for two tokens suggests.

* `split` — the loop over `std::getline` reads tokens that each end at a delimiter, so an
  `@` at the end goes unnoticed.
* `Reads` — what `std::stoul` reads: it skips blanks, takes a sign, and ignores what
  follows the digits.  `stoul_eq_ok` is that.
* `parse_metric_eq_ok` — the two together: exactly which strings are accepted.

`parse_metric_grammar_iff` compares this with the metrics the plugin documents, an event,
`@` and decimal digits.  `period_unaltered_iff` says when the period that reaches the perf
event is the number that was written.
-/

namespace AccessSampling

open Foundation

/-! ### `split` -/

/-- The loop over `std::getline` reads the tokens that end at a delimiter. -/
theorem getlines_eq {d : Char} {token : List Char} (htoken : d ∉ token) (s : List Char) :
    getlines d token s = terminated d (token ++ s) := by
  induction s generalizing token with
  | nil => rw [getlines, List.append_nil, terminated_of_not_mem htoken]
  | cons c s ih =>
      rw [getlines]
      split
      case isTrue hc => rw [hc, terminated_cons htoken, ih List.not_mem_nil, List.nil_append]
      case isFalse hc =>
        have hmem : d ∉ token ++ [c] := by
          rw [List.mem_append, List.mem_singleton, not_or]
          exact ⟨htoken, fun h => hc h.symm⟩
        rw [ih hmem, List.append_assoc, List.singleton_append]

theorem split_eq (s : List Char) (d : Char) : split s d = terminated d s :=
  getlines_eq List.not_mem_nil s

/-- **`split` undoes joining, up to one delimiter at the end.**  No token contains the
delimiter; joining the tokens gives back the string, without a delimiter at its end; and
splitting joined tokens gives them back, unless the last one is empty.  There is one more
token than there are delimiters, but for the empty string and for a delimiter at the
end. -/
theorem split_join (s : List Char) (d : Char) :
    (∀ t ∈ split s d, d ∉ t) ∧
    [d].intercalate (split s d) = (if s.getLast? = some d then s.dropLast else s) ∧
    (∀ ts : List (List Char), (∀ t ∈ ts, d ∉ t) → ts.getLast? ≠ some [] →
      split ([d].intercalate ts) d = ts) ∧
    (split s d).length = s.count d + 1 - if s = [] ∨ s.getLast? = some d then 1 else 0 := by
  rw [split_eq]
  refine ⟨fun t => not_mem_of_mem_terminated, intercalate_terminated d s, ?_,
    length_terminated d s⟩
  intro ts hts hlast
  rw [split_eq, terminated_intercalate hts hlast]

/-- Two tokens: the second one may be followed by a delimiter. -/
theorem split_eq_pair {s a b : List Char} {d : Char} :
    split s d = [a, b] ↔ d ∉ a ∧ d ∉ b ∧
      ((s = a ++ d :: b ∧ b ≠ []) ∨ s = a ++ d :: (b ++ [d])) := by
  rw [split_eq]
  constructor
  · intro h
    have hmem : ∀ t ∈ [a, b], d ∉ t := fun t ht => not_mem_of_mem_terminated (h ▸ ht)
    have hjoin := intercalate_terminated d s
    rw [h, List.intercalate_cons_cons, List.intercalate_singleton] at hjoin
    refine ⟨hmem a (by simp), hmem b (by simp), ?_⟩
    split at hjoin
    case isTrue hlast =>
      obtain ⟨init, rfl⟩ := List.getLast?_eq_some_iff.mp hlast
      rw [List.dropLast_concat] at hjoin
      rw [← hjoin]
      simp
    case isFalse hlast =>
      refine Or.inl ⟨by simpa using hjoin.symm, fun hb => hlast ?_⟩
      rw [← hjoin, hb]
      simp
  · rintro ⟨ha, hb, ⟨rfl, hne⟩ | rfl⟩
    · rw [terminated_cons ha, terminated_of_not_mem hb, if_neg hne]
    · rw [terminated_cons ha, terminated_cons hb, terminated_nil]

/-! ### What `std::stoul` reads -/

/-- A sign that `std::strtoul` accepts, and whether it is a minus. -/
inductive Sign : List Char → Bool → Prop where
  | none : Sign [] false
  | plus : Sign ['+'] false
  | minus : Sign ['-'] true

/-- `std::strtoul` finds a number at the start of a string: after blanks and a sign, and
up to the first character that is no digit. -/
def Reads (str : List Char) (negative : Bool) (digits : List Char) : Prop :=
  ∃ blanks sign rest, str = blanks ++ (sign ++ (digits ++ rest)) ∧
    (∀ c ∈ blanks, isspace c) ∧ Sign sign negative ∧ digits ≠ [] ∧
    (∀ c ∈ digits, c.isDigit) ∧ ∀ c ∈ rest.head?, ¬ c.isDigit

/-- The sign and the digits `stoul` goes by. -/
def scan (str : List Char) : Bool × List Char :=
  let (negative, s) := signed (str.dropWhile isspace)
  (negative, s.takeWhile Char.isDigit)

theorem not_isspace_of_isDigit {c : Char} (h : c.isDigit) : ¬ isspace c := by
  simp only [Char.isDigit, Bool.and_eq_true, decide_eq_true_eq] at h
  simp only [isspace, Bool.or_eq_true, Bool.and_eq_true, decide_eq_true_eq, not_or, not_and]
  have hge : 48 ≤ c.toNat := h.1
  refine ⟨fun hc => ?_, fun _ => by omega⟩
  rw [hc] at hge
  exact absurd hge (by decide)

theorem signed_digit {c : Char} (h : c.isDigit) (s : List Char) :
    signed (c :: s) = (false, c :: s) := by
  unfold signed
  split
  case h_1 heq =>
    cases heq
    cases h
  case h_2 heq =>
    cases heq
    cases h
  case h_3 => rfl

/-- What `signed` takes off a string is a sign. -/
theorem sign_signed (s : List Char) :
    ∃ sign, Sign sign (signed s).1 ∧ s = sign ++ (signed s).2 := by
  unfold signed
  split
  case h_1 => exact ⟨_, .minus, rfl⟩
  case h_2 => exact ⟨_, .plus, rfl⟩
  case h_3 => exact ⟨_, .none, rfl⟩

/-- A sign before a digit is taken off. -/
theorem signed_append {sign s : List Char} {negative : Bool} {c : Char}
    (hsign : Sign sign negative) (hc : c.isDigit) :
    signed (sign ++ c :: s) = (negative, c :: s) := by
  cases hsign with
  | none => exact signed_digit hc s
  | plus => rfl
  | minus => rfl

theorem dropWhile_sign {sign s : List Char} {negative : Bool} {c : Char}
    (hsign : Sign sign negative) (hc : c.isDigit) :
    (sign ++ c :: s).dropWhile isspace = sign ++ c :: s := by
  cases hsign with
  | none => exact List.dropWhile_cons_of_neg (not_isspace_of_isDigit hc)
  | plus => rfl
  | minus => rfl

/-- **`scan` finds what there is to read.** -/
theorem reads_iff {str digits : List Char} {negative : Bool} :
    Reads str negative digits ↔ scan str = (negative, digits) ∧ digits ≠ [] := by
  constructor
  · rintro ⟨blanks, sign, rest, rfl, hblanks, hsign, hne, hdigits, hrest⟩
    refine ⟨?_, hne⟩
    obtain ⟨c, cs, rfl⟩ := List.exists_cons_of_ne_nil hne
    have hc : c.isDigit := hdigits c List.mem_cons_self
    have hstop : rest.takeWhile Char.isDigit = [] := by
      cases rest with
      | nil => rfl
      | cons r rest => exact List.takeWhile_cons_of_neg (hrest r rfl)
    rw [scan, List.dropWhile_append_of_pos hblanks, List.cons_append, dropWhile_sign hsign hc,
      signed_append hsign hc]
    show (negative, (c :: cs ++ rest).takeWhile Char.isDigit) = _
    rw [List.takeWhile_append_of_pos hdigits, hstop, List.append_nil]
  · rintro ⟨hscan, hne⟩
    obtain ⟨sign, hsign, hs⟩ := sign_signed (str.dropWhile isspace)
    have hneg : (signed (str.dropWhile isspace)).1 = negative := congrArg Prod.fst hscan
    have hdigits : (signed (str.dropWhile isspace)).2.takeWhile Char.isDigit = digits :=
      congrArg Prod.snd hscan
    rw [hneg] at hsign
    refine ⟨str.takeWhile isspace, sign, (signed (str.dropWhile isspace)).2.dropWhile Char.isDigit,
      ?_, fun c => List.mem_takeWhile_imp, hsign, hne, fun c hc => ?_, fun c hc => ?_⟩
    · rw [← hdigits, List.takeWhile_append_dropWhile, ← hs, List.takeWhile_append_dropWhile]
    · rw [← hdigits] at hc
      exact List.mem_takeWhile_imp hc
    · rw [Option.mem_def] at hc
      have := List.head?_dropWhile_not Char.isDigit (signed (str.dropWhile isspace)).2
      rw [hc] at this
      simpa using this

/-- A string of digits is read as it is. -/
theorem scan_digits {digits : List Char} (h : ∀ c ∈ digits, c.isDigit) :
    scan digits = (false, digits) := by
  cases digits with
  | nil => rfl
  | cons c cs =>
      have hc : c.isDigit := h c List.mem_cons_self
      rw [scan, List.dropWhile_cons_of_neg (not_isspace_of_isDigit hc), signed_digit hc]
      show (false, (c :: cs).takeWhile Char.isDigit) = _
      rw [List.takeWhile_eq_self_iff.mpr h]

/-- **What `stoul` accepts**, and the number it makes of it. -/
theorem stoul_eq_ok {str : List Char} {n : UInt64} :
    stoul str = .ok n ↔ ∃ negative digits, Reads str negative digits ∧
      decimal digits < 2 ^ 64 ∧
      n = if negative then -UInt64.ofNat (decimal digits) else UInt64.ofNat (decimal digits) := by
  have hstoul : stoul str = if (scan str).2 = [] then .error (.invalid_argument "stoul")
      else if 2 ^ 64 ≤ decimal (scan str).2 then .error (.out_of_range "stoul")
      else .ok (if (scan str).1 then -UInt64.ofNat (decimal (scan str).2)
        else UInt64.ofNat (decimal (scan str).2)) := rfl
  rw [hstoul]
  constructor
  · intro h
    split at h
    case isTrue => cases h
    case isFalse hne =>
      split at h
      case isTrue => cases h
      case isFalse hlt =>
        cases h
        exact ⟨_, _, reads_iff.mpr ⟨rfl, hne⟩, Nat.lt_of_not_le hlt, rfl⟩
  · rintro ⟨negative, digits, hreads, hlt, rfl⟩
    obtain ⟨hscan, hne⟩ := reads_iff.mp hreads
    rw [hscan, if_neg hne, if_neg (Nat.not_le_of_lt hlt)]

/-! ### `parse_metric` -/

theorem parse_metric_eq_ok {metric event : List Char} {period : UInt32} :
    parse_metric metric = .ok (event, period) ↔
      ∃ token n, split metric '@' = [event, token] ∧ stoul token = .ok n ∧
        period = n.toUInt32 := by
  unfold parse_metric
  constructor
  · intro h
    split at h
    case h_1 name token hsplit =>
      cases hstoul : stoul token with
      | error e =>
          rw [hstoul] at h
          cases h
      | ok n =>
          rw [hstoul] at h
          cases h
          exact ⟨token, n, hsplit, hstoul, rfl⟩
    case h_2 => cases h
  · rintro ⟨token, n, hsplit, hstoul, rfl⟩
    simp only [hsplit, hstoul]
    rfl

/-- **What `parse_metric` accepts**: an event, `@` and a text that starts with a number;
another `@` may follow. -/
theorem parse_metric_accepts {metric event : List Char} :
    (∃ period, parse_metric metric = .ok (event, period)) ↔
      ∃ token close negative digits, metric = event ++ '@' :: (token ++ close) ∧
        (close = [] ∨ close = ['@']) ∧ '@' ∉ event ∧ '@' ∉ token ∧
        Reads token negative digits ∧ decimal digits < 2 ^ 64 := by
  simp only [parse_metric_eq_ok, stoul_eq_ok, split_eq_pair]
  constructor
  · rintro ⟨_, token, _, ⟨hevent, htoken, hmetric⟩, ⟨negative, digits, hreads, hlt, -⟩, -⟩
    rcases hmetric with ⟨rfl, -⟩ | rfl
    · exact ⟨token, [], negative, digits, by simp, Or.inl rfl, hevent, htoken, hreads, hlt⟩
    · exact ⟨token, ['@'], negative, digits, rfl, Or.inr rfl, hevent, htoken, hreads, hlt⟩
  · rintro ⟨token, close, negative, digits, rfl, hclose, hevent, htoken, hreads, hlt⟩
    refine ⟨_, token, _, ⟨hevent, htoken, ?_⟩, ⟨negative, digits, hreads, hlt, rfl⟩, rfl⟩
    rcases hclose with rfl | rfl
    · refine Or.inl ⟨by simp, ?_⟩
      rintro rfl
      exact (reads_iff.mp hreads).2 (congrArg Prod.snd (reads_iff.mp hreads).1).symm
    · exact Or.inr rfl

/-- A metric as it is documented: an event without `@`, then `@`, then decimal digits whose
number `std::stoul` can represent. -/
def IsMetric (metric event : List Char) : Prop :=
  ∃ digits, metric = event ++ '@' :: digits ∧ '@' ∉ event ∧ digits ≠ [] ∧
    (∀ c ∈ digits, c.isDigit) ∧ decimal digits < 2 ^ 64

/-- A string that reads like a metric, but has an `@` at its end, or something besides
digits in its period. -/
def Sloppy (metric : List Char) : Prop :=
  ∃ event token close negative digits, metric = event ++ '@' :: (token ++ close) ∧
    (close = [] ∨ close = ['@']) ∧ '@' ∉ event ∧ '@' ∉ token ∧
    Reads token negative digits ∧ decimal digits < 2 ^ 64 ∧
    (close = ['@'] ∨ ∃ c ∈ token, ¬ c.isDigit)

/-- **The grammar of metrics.**  `parse_metric` returns the event for the documented metrics
and throws for all other strings, except for those that are merely sloppy. -/
theorem parse_metric_grammar_iff (metric : List Char) :
    (∀ event, (∃ period, parse_metric metric = .ok (event, period)) ↔ IsMetric metric event) ↔
      ¬ Sloppy metric := by
  simp only [parse_metric_accepts]
  constructor
  · rintro h ⟨event, token, close, negative, digits, hmetric, hclose, hevent, htoken, hreads,
      hlt, hsloppy⟩
    obtain ⟨ds, hds, -, -, hdigit, -⟩ :=
      (h event).mp ⟨token, close, negative, digits, hmetric, hclose, hevent, htoken, hreads, hlt⟩
    obtain rfl : token ++ close = ds :=
      List.tail_eq_of_cons_eq (List.append_cancel_left (hmetric.symm.trans hds))
    rcases hsloppy with rfl | ⟨c, hc, hno⟩
    · exact absurd (hdigit '@' (by simp)) (by decide)
    · exact hno (hdigit c (List.mem_append_left close hc))
  · intro hsloppy event
    constructor
    · rintro ⟨token, close, negative, digits, rfl, hclose, hevent, htoken, hreads, hlt⟩
      have hneat : ∀ c ∈ token, c.isDigit := by
        intro c hc
        by_contra hno
        exact hsloppy ⟨event, token, close, negative, digits, rfl, hclose, hevent, htoken,
          hreads, hlt, Or.inr ⟨c, hc, hno⟩⟩
      obtain rfl : close = [] := hclose.resolve_right fun hat =>
        hsloppy ⟨event, token, close, negative, digits, rfl, hclose, hevent, htoken, hreads,
          hlt, Or.inl hat⟩
      obtain ⟨hscan, hne⟩ := reads_iff.mp hreads
      obtain rfl : token = digits := congrArg Prod.snd ((scan_digits hneat).symm.trans hscan)
      exact ⟨token, by rw [List.append_nil], hevent, hne, hneat, hlt⟩
    · rintro ⟨digits, rfl, hevent, hne, hdigit, hlt⟩
      refine ⟨digits, [], false, digits, by simp, Or.inl rfl, hevent, fun hat => ?_,
        reads_iff.mpr ⟨scan_digits hdigit, hne⟩, hlt⟩
      exact absurd (hdigit '@' hat) (by decide)

/-- An `@` at the end goes unnoticed, and so does what follows the digits. -/
theorem parse_metric_sloppy :
    ¬ ∀ metric event, (∃ period, parse_metric metric = .ok (event, period)) ↔
      IsMetric metric event := by
  intro h
  obtain ⟨digits, hmetric, -, -, hdigit, -⟩ :=
    (h "Load@600@".toList "Load".toList).mp ⟨600, rfl⟩
  have hcut : "Load".toList ++ "@600@".toList = "Load".toList ++ '@' :: digits := hmetric
  obtain rfl : "600@".toList = digits := List.tail_eq_of_cons_eq (List.append_cancel_left hcut)
  exact absurd (hdigit '@' (by decide)) (by decide)

/-! ### The sampling period -/

/-- The number at the start of a string, with its sign. -/
def written (str : List Char) : ℤ :=
  match scan str with
  | (negative, digits) => if negative then -(decimal digits : ℤ) else decimal digits

/-- What `stoul` makes of a number goes into `unsigned int` unharmed exactly if the number
fits there. -/
theorem toUInt32_eq_written {token : List Char} {n : UInt64} (h : stoul token = .ok n) :
    (n.toUInt32.toNat : ℤ) = written token ↔ 0 ≤ written token ∧ written token < 2 ^ 32 := by
  obtain ⟨negative, digits, hreads, hlt, rfl⟩ := stoul_eq_ok.mp h
  have hnat : (UInt64.ofNat (decimal digits)).toNat = decimal digits :=
    UInt64.toNat_ofNat_of_lt' hlt
  rw [written, (reads_iff.mp hreads).1, UInt64.toNat_toUInt32]
  cases negative with
  | false =>
      simp only [Bool.false_eq_true, if_false, hnat]
      omega
  | true =>
      simp only [if_true, UInt64.toNat_neg, hnat, UInt64.size]
      omega

/-- `stoul` throws for a number that 64 bits cannot hold. -/
theorem written_of_stoul {token : List Char} {n : UInt64} (h : stoul token = .ok n) :
    -2 ^ 64 < written token ∧ written token < 2 ^ 64 := by
  obtain ⟨negative, digits, hreads, hlt, -⟩ := stoul_eq_ok.mp h
  rw [written, (reads_iff.mp hreads).1]
  cases negative with
  | false => simp only [Bool.false_eq_true, if_false]; omega
  | true => simp only [if_true]; omega

theorem stoul_of_written {token : List Char} (hne : written token ≠ 0)
    (hge : -2 ^ 64 < written token) (hlt : written token < 2 ^ 64) :
    ∃ n, stoul token = .ok n := by
  obtain ⟨negative, digits, hscan⟩ : ∃ negative digits, scan token = (negative, digits) :=
    ⟨_, _, rfl⟩
  rw [written, hscan] at hne hge hlt
  have hdigits : digits ≠ [] := by
    rintro rfl
    cases negative <;> exact hne rfl
  refine ⟨_, stoul_eq_ok.mpr ⟨negative, digits, reads_iff.mpr ⟨hscan, hdigits⟩, ?_, rfl⟩⟩
  cases negative with
  | false => simp only [Bool.false_eq_true, if_false] at hlt; omega
  | true => simp only [if_true] at hge; omega

theorem sample_period_of_encode {pfm : Pfm} {metric event : List Char}
    {attr : PerfEventAttribute} {period : UInt32}
    (hparse : parse_metric metric = .ok (event, period))
    (h : encode pfm metric = .ok (event, attr)) : attr.sample_period = period.toUInt64 := by
  obtain ⟨period', hparse', hget⟩ := encode_eq_ok.mp h
  obtain ⟨event', config, -, -, rfl⟩ := get_perf_event_eq_ok.mp hget
  cases hparse.symm.trans hparse'
  rfl

/-- A metric is refused, or its period is the number that was written, in `parse_metric`
and in the perf event. -/
def PeriodUnaltered (metric : List Char) : Prop :=
  ∀ event token period, split metric '@' = [event, token] →
    parse_metric metric = .ok (event, period) →
    (period.toNat : ℤ) = written token ∧
      ∀ pfm attr, encode pfm metric = .ok (event, attr) →
        (attr.sample_period.toNat : ℤ) = written token

/-- **The period is altered silently** exactly if its number fits `unsigned long`, or its
negation does, and it does not fit `unsigned int`. -/
theorem period_unaltered_iff (metric : List Char) :
    PeriodUnaltered metric ↔ ∀ event token, split metric '@' = [event, token] →
      ¬ (-2 ^ 64 < written token ∧ written token < 0) ∧
        ¬ (2 ^ 32 ≤ written token ∧ written token < 2 ^ 64) := by
  constructor
  · intro h event token hsplit
    by_contra hbad
    have hsome : ∃ n, stoul token = .ok n := stoul_of_written (by omega) (by omega) (by omega)
    obtain ⟨n, hn⟩ := hsome
    have hparse := parse_metric_eq_ok.mpr ⟨token, n, hsplit, hn, rfl⟩
    have hfits := (toUInt32_eq_written hn).mp (h event token _ hsplit hparse).1
    omega
  · intro h event token period hsplit hparse
    obtain ⟨token', n, hsplit', hn, rfl⟩ := parse_metric_eq_ok.mp hparse
    obtain rfl : token' = token := by simpa using hsplit'.symm.trans hsplit
    have hbound := written_of_stoul hn
    have hgood := h event token' hsplit
    have hkept := (toUInt32_eq_written hn).mpr (by omega)
    refine ⟨hkept, fun pfm attr hencode => ?_⟩
    rw [sample_period_of_encode hparse hencode, UInt32.toNat_toUInt64, hkept]

/-- A period of 2^32 becomes zero. -/
theorem period_altered :
    parse_metric "Load@4294967296".toList = .ok ("Load".toList, 0) ∧
      ¬ ∀ metric, PeriodUnaltered metric := by
  have hparse : parse_metric "Load@4294967296".toList = .ok ("Load".toList, 0) := by rfl
  refine ⟨hparse, fun h => ?_⟩
  have hkept := (h _ _ "4294967296".toList _ rfl hparse).1
  exact absurd hkept (by decide)

end AccessSampling
