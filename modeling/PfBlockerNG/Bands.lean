import PfBlockerNG.OrderedDict
import PfBlockerNG.RegexRules
import PfBlockerNG.Strings

/-!
The six bands and the payloads that carry one: blocks have the odd bands, allows the
even ones.
-/

namespace PfBlockerNG.Bands

open PfBlockerNG.Strings
open PfBlockerNG.OrderedDict
open PfBlockerNG.RegexRules

universe u

/-- `PRIO_FEED_BLOCK`, `PRIO_FEED_BLOCK_IMPORTANT` and `PRIO_USER_BLOCK`. -/
inductive BlockBand where
  | feed
  | feedImportant
  | user
  deriving DecidableEq, Repr

/-- `PRIO_FEED_ALLOW`, `PRIO_FEED_ALLOW_IMPORTANT` and `PRIO_USER_ALLOW`. -/
inductive AllowBand where
  | feed
  | feedImportant
  | user
  deriving DecidableEq, Repr

def BlockBand.prio : BlockBand → Nat
  | .feed => 1
  | .feedImportant => 3
  | .user => 5

def AllowBand.prio : AllowBand → Nat
  | .feed => 2
  | .feedImportant => 4
  | .user => 6

/-- `_block_priority`. -/
def blockPriority (important user : Bool) : BlockBand :=
  if user then .user else if important then .feedImportant else .feed

/-- `_allow_priority`. -/
def allowPriority (important user : Bool) : AllowBand :=
  if user then .user else if important then .feedImportant else .feed

/-- Payload of dataDB, and of zoneDB before the TOP1M marks. -/
structure BlockPayload where
  log : Str
  index : Nat
  important : Bool
  band : BlockBand
  deriving DecidableEq, Repr

/-- Payload of zoneDB. A filtered last writer carries the TOP1M names it yields for and
the payload it yields to. -/
structure ZoneEntry where
  payload : BlockPayload
  top1m : Option (List Str) := none
  top1mFallback : Option BlockPayload := none
  deriving DecidableEq, Repr

/-- Value of whiteDB: the bare wildcard flag of old, or a dictionary that may lack its
band. -/
inductive WhiteEntry where
  | flag (wildcard : Bool)
  | rule (wildcard important : Bool) (band : Option AllowBand) (index : Option Nat)
  deriving DecidableEq, Repr

/-- Payload of a regex list: the text compiled, what it matches and its band. -/
structure RegexPayload (β : Type u) where
  pattern : Str
  re : HostRe
  important : Bool
  band : β

structure FeedGroup where
  feed : Str
  group : Str
  deriving DecidableEq, Repr

namespace WhiteEntry

/-- `_white_entry_wildcard`. -/
def wildcard : WhiteEntry → Bool
  | .flag w => w
  | .rule w _ _ _ => w

/-- `_white_entry_important`. -/
def important : WhiteEntry → Bool
  | .flag _ => false
  | .rule _ i _ _ => i

/-- `_white_entry_band`. -/
def band : WhiteEntry → AllowBand
  | .flag _ => .feed
  | .rule _ i b _ => b.getD (if i then .user else .feed)

end WhiteEntry

def maxBand (a b : AllowBand) : AllowBand := if a.prio < b.prio then b else a

/-- `_white_widen_entry`. -/
def whiteWidenEntry (existing new : WhiteEntry) : WhiteEntry :=
  .rule (existing.wildcard || new.wildcard) (existing.important || new.important)
    (some (maxBand existing.band new.band)) none

def RegexPayload.search {β : Type u} (r : RegexPayload β) (name : Str) : Bool :=
  Backtracking.search Atom.matches Zero.holds name r.re

/-- `_top1m_listed`. -/
def top1mListed (name : Str) (top1m : List Str) : Bool :=
  top1m.contains name || (startsWith "www.".toList name && top1m.contains (name.drop 4))

/-- `_zone_entry_for`. -/
def zoneEntryFor (qName : Str) (entry : ZoneEntry) : Option BlockPayload :=
  match entry.top1m with
  | none => some entry.payload
  | some top1m => if top1mListed qName top1m then entry.top1mFallback else some entry.payload

@[simp] theorem BlockBand.prio_pos (b : BlockBand) : 0 < b.prio := by
  cases b <;> decide

@[simp] theorem AllowBand.prio_pos (b : AllowBand) : 0 < b.prio := by
  cases b <;> decide

theorem BlockBand.prio_le (b : BlockBand) : b.prio ≤ 5 := by
  cases b <;> decide

theorem AllowBand.prio_le (b : AllowBand) : b.prio ≤ 6 := by
  cases b <;> decide

theorem AllowBand.prio_inj {a b : AllowBand} (h : a.prio = b.prio) : a = b := by
  cases a <;> cases b <;> first | rfl | cases h

end PfBlockerNG.Bands
