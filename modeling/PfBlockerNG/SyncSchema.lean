import Mathlib.Data.Char
import Mathlib.Data.List.Lex
import PfBlockerNG.ConfigRegistry
import PfBlockerNG.KeyedTree
import PfBlockerNG.ScheduleState

/-!
The sections that a policy sync carries, and the schema that tells their containers from their
leaves and the keys a node shares from the ones it keeps for itself.
-/

namespace PfBlockerNG.SyncSchema

open Strings OrderedDict KeyedTree
open ConfigRegistry (SectionAlias pfbSections isDigits)

/-! ### Stored values -/

/-- A value that is no array. A number carries the text it prints as. -/
inductive Scalar
  | null
  | bool (b : Bool)
  | num (text : Str)
  | str (s : Str)
  deriving DecidableEq, Repr

/-- A stored value. An integer key of an array is its decimal text. -/
abbrev Value := KeyTree Str Scalar

abbrev Items := List (Str × Value)

abbrev Path := List Str

def null : Value := .leaf .null

theorem node_ne_null (items : Items) : (.node items : Value) ≠ null := KeyTree.node_ne_leaf _ _

def text (s : Str) : Value := .leaf (.str s)

def isArray : Value → Bool
  | .node _ => true
  | .leaf _ => false

def isString : Value → Bool
  | .leaf (.str _) => true
  | _ => false

/-- `$items[$k] ?? NULL`. -/
def valueOf (k : Str) (items : Items) : Value := (lookup k items).getD null

/-- What stands at a path, NULL when nothing does. -/
def valueAt : Path → Value → Value
  | [], v => v
  | k :: p, v => valueAt p (valueOf k v.items)

/-! ### Sections -/

inductive Section
  | pfblockerng | pfblockerngipsettings | pfblockerngdnsblsettings
  | pfblockernglistsv4 | pfblockernglistsv6 | pfblockerngreputation | pfblockerngtopspammers
  | pfblockerngafrica | pfblockerngantarctica | pfblockerngasia | pfblockerngeurope
  | pfblockerngnorthamerica | pfblockerngoceania | pfblockerngsouthamerica
  | pfblockerngproxyandsatellite | pfblockerngdnsbl | pfblockerngblacklist | pfblockerngglobal
  | pfblockerngsafesearch
  deriving DecidableEq, Repr

def Section.name : Section → Str
  | .pfblockerng => "pfblockerng".toList
  | .pfblockerngipsettings => "pfblockerngipsettings".toList
  | .pfblockerngdnsblsettings => "pfblockerngdnsblsettings".toList
  | .pfblockernglistsv4 => "pfblockernglistsv4".toList
  | .pfblockernglistsv6 => "pfblockernglistsv6".toList
  | .pfblockerngreputation => "pfblockerngreputation".toList
  | .pfblockerngtopspammers => "pfblockerngtopspammers".toList
  | .pfblockerngafrica => "pfblockerngafrica".toList
  | .pfblockerngantarctica => "pfblockerngantarctica".toList
  | .pfblockerngasia => "pfblockerngasia".toList
  | .pfblockerngeurope => "pfblockerngeurope".toList
  | .pfblockerngnorthamerica => "pfblockerngnorthamerica".toList
  | .pfblockerngoceania => "pfblockerngoceania".toList
  | .pfblockerngsouthamerica => "pfblockerngsouthamerica".toList
  | .pfblockerngproxyandsatellite => "pfblockerngproxyandsatellite".toList
  | .pfblockerngdnsbl => "pfblockerngdnsbl".toList
  | .pfblockerngblacklist => "pfblockerngblacklist".toList
  | .pfblockerngglobal => "pfblockerngglobal".toList
  | .pfblockerngsafesearch => "pfblockerngsafesearch".toList

def pfblockerngSyncSections (includeInterfaces : Bool) : List Section :=
  (if includeInterfaces then
    [.pfblockerng, .pfblockerngipsettings, .pfblockerngdnsblsettings] else []) ++
  [.pfblockernglistsv4, .pfblockernglistsv6, .pfblockerngreputation, .pfblockerngtopspammers,
    .pfblockerngafrica, .pfblockerngantarctica, .pfblockerngasia, .pfblockerngeurope,
    .pfblockerngnorthamerica, .pfblockerngoceania, .pfblockerngsouthamerica,
    .pfblockerngproxyandsatellite, .pfblockerngdnsbl, .pfblockerngblacklist, .pfblockerngglobal,
    .pfblockerngsafesearch]

theorem mem_syncSections (s : Section) : s ∈ pfblockerngSyncSections true := by
  cases s <;> decide

theorem names_nodup : ((pfblockerngSyncSections true).map Section.name).Nodup := by
  decide

theorem name_injective {s t : Section} (h : s.name = t.name) : s = t :=
  List.inj_on_of_nodup_map names_nodup (mem_syncSections s) (mem_syncSections t) h

/-! ### Keys and names -/

def kConfig : Str := "config".toList
def kRow : Str := "row".toList
def kItem : Str := "item".toList
def kZero : Str := "0".toList
def kHeader : Str := "header".toList
def kAliasname : Str := "aliasname".toList
def kXml : Str := "xml".toList
def kDefault : Str := "default".toList
def star : Str := "*".toList

/-- `^[a-z_][a-z0-9_.-]*$`, the names of stored elements. -/
def elementName : Str → Bool
  | [] => false
  | c :: cs => (c.isLower || c = '_') &&
      cs.all fun c => c.isLower || c.isDigit || c = '_' || c = '.' || c = '-'

/-- The text of an integer that an array takes as an integer key,
`(string) (int) $key === $key`. -/
def isIntKey : Str → Bool
  | ['0'] => true
  | '-' :: c :: cs => c ≠ '0' && isDigits (c :: cs) && Nat.ofDigitChars 10 (c :: cs) 0 ≤ 2 ^ 63
  | c :: cs => c ≠ '0' && isDigits (c :: cs) && Nat.ofDigitChars 10 (c :: cs) 0 < 2 ^ 63
  | [] => false

def explode (s : Str) : Path := s.splitOn '/'

def implode (p : Path) : Str := ['/'].intercalate p

theorem explode_implode {p : Path} (hne : p ≠ []) (hslash : ∀ k ∈ p, '/' ∉ k) :
    explode (implode p) = p :=
  List.splitOn_intercalate '/' hslash hne

/-! ### Receiver-local paths -/

def localRow : List Str :=
  ["srcint".toList, "script_pre".toList, "script_post".toList, "agateway_in".toList,
    "agateway_out".toList, "infolists".toList]

def localSection : Section → List Str
  | .pfblockerngblacklist => ["item/*/username".toList, "item/*/password".toList]
  | _ => []

def policyOnly : Section → Option (List Str)
  | .pfblockerngglobal => some ["feed_".toList]
  | _ => none

/-- The segments stand at the front of the path, a star for any one of its keys. -/
def matchesPattern (segments : Path) (rel : Path) : Bool :=
  segments.length ≤ rel.length && (segments.zip rel).all fun x => x.1 = star || x.1 = x.2

/-- `pfb_sync_path_is_local()`. -/
def pathIsLocal (s : Section) (rel : Path) : Bool :=
  match policyOnly s with
  | some prefixes => !prefixes.any fun pre => startsWith pre (rel.headD [])
  | none =>
      (3 ≤ rel.length && rel.headD [] = kConfig && localRow.contains (rel.getD 2 [])) ||
        (localSection s).any fun pattern => matchesPattern (explode pattern) rel

/-- The settings sections and the registry alias of each; their map is `config/0`. -/
def settings : Section → Option SectionAlias
  | .pfblockerng => some .gen
  | .pfblockerngipsettings => some .ip
  | .pfblockerngdnsblsettings => some .dnsbl
  | _ => none

/-! ### Identity lists -/

structure IdentityList where
  key : Str
  id : Str
  /-- The local leaves of a row the receiver does not know. -/
  defaults : Items

def ipRow : Items :=
  [("srcint".toList, text []), ("script_pre".toList, text []), ("script_post".toList, text []),
    ("agateway_in".toList, text kDefault), ("agateway_out".toList, text kDefault)]

def lists : Section → Option IdentityList
  | .pfblockernglistsv4 | .pfblockernglistsv6 => some ⟨kConfig, kAliasname, ipRow⟩
  | .pfblockerngdnsbl => some ⟨kConfig, kAliasname, ipRow.take 3⟩
  | .pfblockerngblacklist =>
      some ⟨kItem, kXml, [("username".toList, text []), ("password".toList, text [])]⟩
  | _ => none

def flat (s : Section) : Bool := s = .pfblockerngsafesearch || s = .pfblockerngglobal

/-! ### Positions -/

/-- The container positions of the schema; every other position is a leaf. -/
def container (s : Section) : Path → Bool
  | [] => true
  | k :: rest =>
      if s = .pfblockerngblacklist then k = kItem && rest.length ≤ 1
      else if flat s || k ≠ kConfig then false
      else rest.length ≤ 1 ||
        ((settings s).isNone && rest.getD 1 [] = kRow && rest.length ≤ 3)

def feed (p : Path) : Bool :=
  p.length = 4 && p.headD [] = kConfig && p.getD 2 [] = kRow

/-- The identity list that stands at this path. -/
def listAt (s : Section) (p : Path) : Option IdentityList :=
  (lists s).filter fun l => p = [l.key]

variable (policy : SectionAlias → Str → Bool)

/-- A key that a payload cannot set: it cannot be classified, or it is the receiver's own. -/
def isLocal (s : Section) (p : Path) : Bool :=
  let key := p.getLast?.getD []
  if (if container s p && p.length % 2 = 0 then !isDigits key else !elementName key) then true
  else
    match settings s with
    | none => pathIsLocal s p
    | some a =>
        if p.headD [] ≠ kConfig || (2 ≤ p.length && p.getD 1 [] ≠ kZero) then true
        else 3 ≤ p.length && !policy a (p.getD 2 [])

/-! ### What the schema fixes -/

def schemaDepth : ℕ := 5

theorem length_lt_of_container {s : Section} {p : Path} (h : container s p = true) :
    p.length < schemaDepth := by
  cases p with
  | nil => decide
  | cons k rest =>
      unfold schemaDepth
      simp only [container] at h
      split at h
      · simp only [Bool.and_eq_true, decide_eq_true_eq] at h
        simp only [List.length_cons]
        omega
      · split at h
        · cases h
        · simp only [Bool.or_eq_true, Bool.and_eq_true, decide_eq_true_eq] at h
          simp only [List.length_cons]
          omega

/-- What holds at the leaf positions and passes from the keys of a container to the container
holds at every position. -/
theorem path_induction {s : Section} {P : Path → Prop}
    (leaf : ∀ p, container s p = false → P p)
    (step : ∀ p, container s p = true → (∀ k, P (p ++ [k])) → P p) (p : Path) : P p := by
  induction hn : schemaDepth - p.length using Nat.strong_induction_on generalizing p with
  | _ n ih =>
      cases hc : container s p with
      | false => exact leaf p hc
      | true =>
          have hlt := length_lt_of_container hc
          exact step p hc fun k => ih _ (by subst hn; simp only [List.length_append,
            List.length_cons, List.length_nil]; omega) (p ++ [k]) rfl

/-- Feed rows stand in deny-list sections. -/
theorem settings_of_feed {s : Section} {p : Path} (hc : container s p = true)
    (hf : feed p = true) : settings s = none := by
  cases p with
  | nil => cases hf
  | cons k rest =>
      have hlength : rest.length = 3 := by
        simp only [feed, Bool.and_eq_true, decide_eq_true_eq, List.length_cons] at hf
        omega
      by_contra hs
      cases s <;> simp [container, flat, settings, hlength] at hc hs

section
variable {s : Section} {l : IdentityList}

theorem listAt_eq_some_iff {p : Path} :
    listAt s p = some l ↔ lists s = some l ∧ p = [l.key] := by
  simp [listAt, Option.filter_eq_some_iff]

theorem listAt_of_length_ne_one (s : Section) {p : Path} (h : p.length ≠ 1) :
    listAt s p = none := by
  cases hl : listAt s p with
  | none => rfl
  | some l =>
      obtain ⟨_, rfl⟩ := listAt_eq_some_iff.mp hl
      exact absurd rfl h

theorem feed_of_length_ne_four {p : Path} (h : p.length ≠ 4) : feed p = false := by
  simp [feed, h]

/-- The sections whose rows have an identity. -/
theorem of_lists (h : lists s = some l) :
    (s = .pfblockernglistsv4 ∧ l = ⟨kConfig, kAliasname, ipRow⟩) ∨
      (s = .pfblockernglistsv6 ∧ l = ⟨kConfig, kAliasname, ipRow⟩) ∨
      (s = .pfblockerngdnsbl ∧ l = ⟨kConfig, kAliasname, ipRow.take 3⟩) ∨
      (s = .pfblockerngblacklist ∧
        l = ⟨kItem, kXml, [("username".toList, text []), ("password".toList, text [])]⟩) := by
  cases s <;> simp only [lists, reduceCtorEq, Option.some.injEq] at h <;> subst h <;> simp

theorem container_list (h : lists s = some l) : container s [l.key] = true := by
  rcases of_lists h with ⟨rfl, rfl⟩ | ⟨rfl, rfl⟩ | ⟨rfl, rfl⟩ | ⟨rfl, rfl⟩ <;> rfl

theorem isLocal_list (h : lists s = some l) : isLocal policy s [l.key] = false := by
  rcases of_lists h with ⟨rfl, rfl⟩ | ⟨rfl, rfl⟩ | ⟨rfl, rfl⟩ | ⟨rfl, rfl⟩ <;> rfl

theorem container_row (h : lists s = some l) (k : Str) : container s [l.key, k] = true := by
  rcases of_lists h with ⟨rfl, rfl⟩ | ⟨rfl, rfl⟩ | ⟨rfl, rfl⟩ | ⟨rfl, rfl⟩ <;> rfl

theorem schema_row (h : lists s = some l) (k : Str) :
    settings s = none ∧ pathIsLocal s [l.key, k] = false := by
  rcases of_lists h with ⟨rfl, rfl⟩ | ⟨rfl, rfl⟩ | ⟨rfl, rfl⟩ | ⟨rfl, rfl⟩ <;>
    exact ⟨rfl, rfl⟩

theorem eq_key_of_container (h : lists s = some l) {a b : Str}
    (hc : container s [a, b] = true) : a = l.key := by
  rcases of_lists h with ⟨rfl, rfl⟩ | ⟨rfl, rfl⟩ | ⟨rfl, rfl⟩ | ⟨rfl, rfl⟩ <;>
    simpa [container, flat] using hc

theorem container_id (h : lists s = some l) (k : Str) : container s [l.key, k, l.id] = false := by
  rcases of_lists h with ⟨rfl, rfl⟩ | ⟨rfl, rfl⟩ | ⟨rfl, rfl⟩ | ⟨rfl, rfl⟩ <;> rfl

theorem isLocal_id (h : lists s = some l) (k : Str) :
    isLocal policy s [l.key, k, l.id] = false := by
  rcases of_lists h with ⟨rfl, rfl⟩ | ⟨rfl, rfl⟩ | ⟨rfl, rfl⟩ | ⟨rfl, rfl⟩ <;> rfl

/-- A new row is given nothing but local keys, each of them once. -/
theorem isLocal_default (h : lists s = some l) (k : Str) {f : Str × Value}
    (hf : f ∈ l.defaults) : isLocal policy s [l.key, k, f.1] = true := by
  rcases of_lists h with ⟨rfl, rfl⟩ | ⟨rfl, rfl⟩ | ⟨rfl, rfl⟩ | ⟨rfl, rfl⟩ <;>
    simp only [ipRow, List.take, List.mem_cons, List.not_mem_nil, or_false] at hf
  all_goals rcases hf with rfl | rfl | rfl | rfl | rfl <;> rfl

theorem default_path (h : lists s = some l) (k : Str) {f : Str × Value}
    (hf : f ∈ l.defaults) : pathIsLocal s [l.key, k, f.1] = true := by
  rcases of_lists h with ⟨rfl, rfl⟩ | ⟨rfl, rfl⟩ | ⟨rfl, rfl⟩ | ⟨rfl, rfl⟩ <;>
    simp only [ipRow, List.take, List.mem_cons, List.not_mem_nil, or_false] at hf
  all_goals rcases hf with rfl | rfl | rfl | rfl | rfl <;> rfl

theorem nodup_defaults (h : lists s = some l) : (l.defaults.map Prod.fst).Nodup := by
  rcases of_lists h with ⟨rfl, rfl⟩ | ⟨rfl, rfl⟩ | ⟨rfl, rfl⟩ | ⟨rfl, rfl⟩ <;> decide

end

end PfBlockerNG.SyncSchema
