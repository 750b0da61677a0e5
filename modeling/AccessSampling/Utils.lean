import Mathlib.Data.Nat.Notation

/-!
# Parsing metrics

A metric is an event and a sampling period, `Load@600`.  A C++ string is a list
of characters here.  `split` is the loop over `std::getline`, and `stoul` is
`std::stoul` in base ten; its result is narrowed to `unsigned int` on the way into
the tuple that `parse_metric` returns.
-/

namespace AccessSampling

/-- What a function of the plugin leaves by, when it does not return. -/
inductive Exception where
  | invalid_argument (what : String)
  | out_of_range (what : String)
  | runtime_error (what : String)
  deriving DecidableEq

/-- `std::tolower` on every character, in the C locale. -/
def to_lower (input_string : List Char) : List Char := input_string.map Char.toLower

/-- The tokens `std::getline` yields from what is left of the stream, `token` being
what the current call has extracted.  A call that extracts nothing at the end of the
stream fails and ends the loop. -/
def getlines (delimiter : Char) : (token : List Char) → List Char → List (List Char)
  | token, [] => if token = [] then [] else [token]
  | token, c :: s =>
      if c = delimiter then token :: getlines delimiter [] s
      else getlines delimiter (token ++ [c]) s

def split (s : List Char) (delimiter : Char) : List (List Char) := getlines delimiter [] s

/-- `std::isspace` in the C locale. -/
def isspace (c : Char) : Bool := c = ' ' || (9 ≤ c.toNat && c.toNat ≤ 13)

/-- The number a string of decimal digits stands for. -/
def decimal (digits : List Char) : ℕ := digits.foldl (fun n c => 10 * n + (c.toNat - 48)) 0

/-- The sign `std::strtoul` accepts, and what follows it. -/
def signed : List Char → Bool × List Char
  | '-' :: s => (true, s)
  | '+' :: s => (false, s)
  | s => (false, s)

/-- `std::stoul` in base ten: blanks, a sign, and as many digits as there are.  A
negative number is negated in `unsigned long`. -/
def stoul (str : List Char) : Except Exception UInt64 :=
  let (negative, s) := signed (str.dropWhile isspace)
  let digits := s.takeWhile Char.isDigit
  if digits = [] then .error (.invalid_argument "stoul")
  else if UInt64.size ≤ decimal digits then .error (.out_of_range "stoul")
  else .ok (if negative then -UInt64.ofNat (decimal digits) else UInt64.ofNat (decimal digits))

def parse_metric (metric : List Char) : Except Exception (List Char × UInt32) :=
  match split metric '@' with
  | [event, period] => (stoul period).map fun n => (event, n.toUInt32)
  | _ => .error (.invalid_argument "Invalid metric given")

example : parse_metric "Load@600".toList = .ok ("Load".toList, 600) := by rfl

end AccessSampling
