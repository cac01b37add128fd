import PfBlockerNG.LruCache
import PfBlockerNG.Strings

/-!
The per-name memo of `operate`: one `Decision` per name, whose three axes are filled
lazily and which is stamped with the generation of the snapshot it was computed against.
-/

namespace PfBlockerNG.DecisionMemo

open PfBlockerNG.Strings
open PfBlockerNG.LruCache
open PfBlockerNG.OrderedDict

universe u

/-- A SafeSearch redirection. -/
structure SafeSearchEntry where
  a : Str
  aaaa : Str
  v4 : Option Str
  v6 : Option Str
  deriving DecidableEq, Repr

/-- `Decision`; an axis that is `none` is not evaluated yet (`UNSET`). -/
structure Decision (ω : Type u) where
  dnsbl : Option ω := none
  noaaaa : Option Bool := none
  safesearch : Option (Option SafeSearchEntry) := none
  snapGen : Nat := 0

/-- What one evaluation is asked: `evaluate_domain(q_name, q_name_original, tld, isCNAME)`. -/
structure Ask where
  qName : Str
  qNameOriginal : Str
  tld : Str
  isCname : Bool
  deriving DecidableEq, Repr

end PfBlockerNG.DecisionMemo
