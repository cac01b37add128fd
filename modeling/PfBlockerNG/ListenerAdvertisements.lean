import Mathlib.Data.List.Dedup
import Mathlib.Data.List.Nodup
import PfBlockerNG.OrderedDict
import PfBlockerNG.Strings
import PfBlockerNG.Transitions

/-!
Listener advertisements: the addresses the package adds to the DHCP, RA and Resolver interface
lists, the record of what it added, and the runs of applies and operator edits.
-/

namespace PfBlockerNG.ListenerAdvertisements

open PfBlockerNG.Strings
open PfBlockerNG.OrderedDict
open PfBlockerNG.Transitions

/-! ### Words of a settings list -/

/-- `[\s,]`. -/
def separator (c : Char) : Bool := c == ',' || c == ' ' || (9 ≤ c.toNat && c.toNat ≤ 13)

/-- `array_unique`: the first of equal words stays. -/
def distinct (words : List Str) : List Str := words.reverse.dedup.reverse

/-- `pfb_dns_proxy_tokens`. -/
def tokens (list : Str) : List Str := distinct ((list.splitOnP separator).filter (· ≠ []))

def implode (words : List Str) : Str := [','].intercalate words

/-- A non-empty word. -/
def Plain (word : Str) : Prop := word ≠ [] ∧ ∀ c ∈ word, separator c = false

theorem plain_of_all {word : Str} (hne : word ≠ [])
    (h : word.all (fun c => !separator c) = true) : Plain word :=
  ⟨hne, fun c hc => (Bool.not_eq_true' _).mp (List.all_eq_true.mp h c hc)⟩

/-! ### The configuration -/

/-- What stands at a server list: nothing, a text, or the servers. -/
inductive Stored where
  | absent
  | scalar (text : Str)
  | list (servers : List Str)
  deriving DecidableEq, Repr

def Stored.servers : Stored → List Str
  | .list servers => servers
  | _ => []

/-- `config_set_path` where the value differs from what `config_get_path` gave, which is the empty
list for nothing and for an empty text. -/
def Stored.write (stored : Stored) (servers : List Str) : Stored :=
  match stored with
  | .absent | .scalar [] => if servers = [] then stored else .list servers
  | _ => .list servers

/-- The settings of one interface. -/
structure Settings where
  dnsserver : Stored
  radnsserver : Stored
  rasamednsasdhcp6 : Bool
  deriving DecidableEq, Repr

inductive Section where
  | dhcpd
  | dhcpdv6
  deriving DecidableEq, Repr

/-- The sections that carry the lists; settings that are no array are `none`. -/
structure Config where
  dhcpd : Dict Str (Option Settings)
  dhcpdv6 : Dict Str (Option Settings)
  activeInterface : Str

def Config.interfaces (config : Config) : Section → Dict Str (Option Settings)
  | .dhcpd => config.dhcpd
  | .dhcpdv6 => config.dhcpdv6

/-- The path of a list. -/
inductive ListPath where
  | dnsserver (s : Section) (interface : Str)
  | radnsserver (interface : Str)
  | activeInterface
  deriving DecidableEq, Repr

def Config.settings (config : Config) (s : Section) (interface : Str) : Option Settings :=
  ((config.interfaces s).get interface).join

/-- The entries of a list. -/
def Config.entries (config : Config) : ListPath → List Str
  | .dnsserver s interface =>
      ((config.settings s interface).map fun t => t.dnsserver.servers).getD []
  | .radnsserver interface =>
      ((config.settings .dhcpdv6 interface).map fun t => t.radnsserver.servers).getD []
  | .activeInterface => tokens config.activeInterface

/-- `gen/pfb_dns_listen_added`. -/
abbrev Record := Dict ListPath (List Str)

def Record.added (record : Record) (path : ListPath) : List Str := (record.get path).getD []

/-! ### One apply -/

/-- What an apply finds outside the lists: the active listener VIPs with their ids, which are
words, VIP-only, each interface's own address, the standard text of an address, and whether the
Resolver has been moved. -/
structure Env where
  vips : List (Str × Str)
  plainIds : ∀ p ∈ vips, Plain p.2
  vipOnly : Bool
  ownAddress : Section → Str → Option Str
  canonical : Str → Str
  moved : Bool

/-- `pfb_dns_listen_family_addresses`. -/
def Env.address (env : Env) (s : Section) : Option Str :=
  ((env.vips.map Prod.fst).filter fun a => a.contains ':' == decide (s = .dhcpdv6)).getLast?

inductive Scope where
  | plain
  | foreign
  | frozen
  deriving DecidableEq, Repr

/-- `pfb_dns_listen_foreign_scopes` for one list. -/
def scope (env : Env) (s : Section) (interface : Str) (stored : Stored) (added : List Str) :
    Scope :=
  match env.address s with
  | none => .plain
  | some vip =>
      let entries := stored.servers.filter (· ≠ [])
      match env.ownAddress s interface with
      | none => if entries ≠ [] then .frozen else .plain
      | some own =>
          let ours := ([own, vip] ++ added).map env.canonical
          if entries.any fun server => !ours.contains (env.canonical server) then .foreign
          else .plain

/-- One address of `$added[$path]` in `$sync`. -/
def keepStep (wanted : List Str) (acc : List Str × List Str) (address : Str) :
    List Str × List Str :=
  if address ∉ wanted then (acc.1.filter (· ≠ address), acc.2)
  else if address ∈ acc.1 then (acc.1, acc.2 ++ [address])
  else acc

/-- One wanted address in `$sync`. -/
def addStep (acc : List Str × List Str) (address : Str) : List Str × List Str :=
  if address ∉ acc.1 then (acc.1 ++ [address], acc.2 ++ [address]) else acc

/-- `$sync`: the list and its part of the next record. -/
def sync (wanted added list : List Str) : List Str × List Str :=
  wanted.foldl addStep (added.foldl (keepStep wanted) (list, []))

/-- One list: left alone with its record, or synced. -/
def visit (env : Env) (found : Scope) (wanted added list : List Str) : List Str × List Str :=
  match found, env.vipOnly with
  | .foreign, true | .frozen, _ => (list, added)
  | .foreign, false => sync [] added list
  | .plain, _ => sync wanted added list

def Env.wanted (env : Env) (s : Section) : List Str := (env.address s).toList

/-- The `dnsserver` list of an interface. -/
def visitServers (env : Env) (record : Record) (s : Section) (interface : Str) (t : Settings) :
    List Str × List Str :=
  let added := record.added (.dnsserver s interface)
  visit env (scope env s interface t.dnsserver added) (env.wanted s) added t.dnsserver.servers

/-- The `radnsserver` list of an interface: nothing is wanted there while RA hands out the DHCPv6
servers. -/
def visitRa (env : Env) (record : Record) (interface : Str) (t : Settings) :
    List Str × List Str :=
  let added := record.added (.radnsserver interface)
  if t.rasamednsasdhcp6 then visit env .plain [] added t.radnsserver.servers
  else visit env (scope env .dhcpdv6 interface t.radnsserver added) (env.wanted .dhcpdv6) added
    t.radnsserver.servers

def applySettings (env : Env) (record : Record) (s : Section) (interface : Str) (t : Settings) :
    Settings :=
  { t with
    dnsserver := t.dnsserver.write (visitServers env record s interface t).1
    radnsserver := if s = .dhcpdv6 then t.radnsserver.write (visitRa env record interface t).1
      else t.radnsserver }

/-- What the lists of an interface put into the next record. -/
def settingsRecord (env : Env) (record : Record) (s : Section) (interface : Str) (t : Settings) :
    List (ListPath × List Str) :=
  (ListPath.dnsserver s interface, (visitServers env record s interface t).2) ::
    if s = .dhcpdv6 then [(.radnsserver interface, (visitRa env record interface t).2)] else []

def lo0 : Str := ['l', 'o', '0']

/-- What the Resolver should listen on besides the operator's interfaces. -/
def resolverWanted (env : Env) (active : List Str) : List Str :=
  if active = [] ∨ ['a', 'l', 'l'] ∈ active ∨ env.vips = [] then []
  else lo0 :: env.vips.map Prod.snd

/-- The Resolver's interface list. -/
def visitResolver (env : Env) (record : Record) (active : List Str) : List Str × List Str :=
  if env.moved then (active, record.added .activeInterface)
  else sync (resolverWanted env active) (record.added .activeInterface) active

/-- What the lists of a section put into the next record. -/
def sectionRecord (env : Env) (config : Config) (record : Record) (s : Section) :
    List (ListPath × List Str) :=
  (config.interfaces s).items.flatMap fun p => (p.2.map (settingsRecord env record s p.1)).getD []

/-- What all lists put into the next record. -/
def nextRecord (env : Env) (config : Config) (record : Record) : List (ListPath × List Str) :=
  sectionRecord env config record .dhcpd ++ sectionRecord env config record .dhcpdv6 ++
    [(.activeInterface, (visitResolver env record (tokens config.activeInterface)).2)]

/-- `pfb_dns_listen_vips_apply`: the lists and the next record. -/
def apply (env : Env) (config : Config) (record : Record) : Config × Record :=
  let resolver := visitResolver env record (tokens config.activeInterface)
  (⟨config.dhcpd.mapValues fun i t => t.map (applySettings env record .dhcpd i),
      config.dhcpdv6.mapValues fun i t => t.map (applySettings env record .dhcpdv6 i),
      if env.moved then config.activeInterface else implode resolver.1⟩,
    Dict.empty.update ((nextRecord env config record).filter fun p => p.2 ≠ []))

/-! ### Uninstall -/

def dropSettings (record : Record) (s : Section) (interface : Str) (t : Settings) : Settings :=
  let without := fun (stored : Stored) (path : ListPath) =>
    let rest := stored.servers.filter (· ∉ record.added path)
    if rest ≠ stored.servers then stored.write rest else stored
  { t with
    dnsserver := without t.dnsserver (.dnsserver s interface)
    radnsserver := if s = .dhcpdv6 then without t.radnsserver (.radnsserver interface)
      else t.radnsserver }

/-- `pfb_dns_listen_advertisements_drop`. -/
def drop (config : Config) (record : Record) : Config × Record :=
  let active := tokens config.activeInterface
  let rest := active.filter (· ∉ record.added .activeInterface)
  (⟨config.dhcpd.mapValues fun i t => t.map (dropSettings record .dhcpd i),
      config.dhcpdv6.mapValues fun i t => t.map (dropSettings record .dhcpdv6 i),
      if rest ≠ active then implode rest else config.activeInterface⟩,
    Dict.empty)

/-! ### One list -/

theorem foldl_keepStep (wanted : List Str) {added : List Str} (h : added.Nodup)
    (list kept : List Str) :
    added.foldl (keepStep wanted) (list, kept) =
      (list.filter fun x => x ∉ added ∨ x ∈ wanted,
        kept ++ added.filter fun a => a ∈ wanted ∧ a ∈ list) := by
  induction added generalizing list kept with
  | nil => simp
  | cons a added ih =>
      rw [List.nodup_cons] at h
      rw [List.foldl_cons, keepStep]
      dsimp only
      by_cases hw : a ∈ wanted
      · have hlist : (list.filter fun x => x ∉ a :: added ∨ x ∈ wanted) =
            list.filter fun x => x ∉ added ∨ x ∈ wanted := by
          refine List.filter_congr fun x _ => ?_
          by_cases hx : x = a
          · simp [hx, hw]
          · simp [hx]
        rw [if_neg (not_not.mpr hw), hlist]
        by_cases hl : a ∈ list
        · rw [if_pos hl, ih h.2, List.filter_cons_of_pos (by simp [hw, hl]), List.append_assoc]
          rfl
        · rw [if_neg hl, ih h.2, List.filter_cons_of_neg (by simp [hl])]
      · rw [if_pos hw, ih h.2, List.filter_cons_of_neg (by simp [hw]), List.filter_filter]
        refine Prod.ext ?_ ?_
        · refine List.filter_congr fun x _ => ?_
          by_cases hx : x = a
          · simp [hx, hw]
          · simp [hx]
        · refine congrArg (kept ++ ·) (List.filter_congr fun x hx => ?_)
          have hne : x ≠ a := fun heq => h.1 (heq ▸ hx)
          simp [hne]

theorem foldl_addStep (wanted list kept : List Str) :
    ∃ news, wanted.foldl addStep (list, kept) = (list ++ news, kept ++ news) ∧ news.Nodup ∧
      (∀ a ∈ news, a ∉ list) ∧ ∀ a ∈ news, a ∈ wanted := by
  induction wanted generalizing list kept with
  | nil => exact ⟨[], by simp, List.nodup_nil, by simp, by simp⟩
  | cons a wanted ih =>
      rw [List.foldl_cons, addStep]
      dsimp only
      split
      · rename_i ha
        obtain ⟨news, hfold, hnodup, hnew, hwanted⟩ := ih (list ++ [a]) (kept ++ [a])
        refine ⟨a :: news, ?_, ?_, ?_, ?_⟩
        · rw [hfold, List.append_assoc, List.append_assoc]
          rfl
        · refine List.nodup_cons.mpr ⟨fun hmem => hnew a hmem ?_, hnodup⟩
          exact List.mem_append_right _ (List.mem_singleton.mpr rfl)
        · rintro b hb
          rcases List.mem_cons.mp hb with rfl | hb
          · exact ha
          · exact fun hmem => hnew b hb (List.mem_append_left _ hmem)
        · rintro b hb
          rcases List.mem_cons.mp hb with rfl | hb
          · exact List.mem_cons_self
          · exact List.mem_cons_of_mem _ (hwanted b hb)
      · obtain ⟨news, hfold, hnodup, hnew, hwanted⟩ := ih list kept
        exact ⟨news, hfold, hnodup, hnew, fun b hb => List.mem_cons_of_mem _ (hwanted b hb)⟩

/-- What a step on one list keeps: no address is recorded twice, and the entries that are not
recorded stay as they were. -/
structure Keeps (added list : List Str) (r : List Str × List Str) : Prop where
  nodup : r.2.Nodup
  own : (r.1.filter fun x => x ∉ r.2) = list.filter fun x => x ∉ added

theorem keeps_self {added list : List Str} (h : added.Nodup) : Keeps added list (list, added) :=
  ⟨h, rfl⟩

theorem sync_keeps (wanted : List Str) {added : List Str} (h : added.Nodup) (list : List Str) :
    Keeps added list (sync wanted added list) := by
  unfold sync
  rw [foldl_keepStep wanted h]
  obtain ⟨news, hfold, hnodup, hnew, hwanted⟩ := foldl_addStep wanted
    (list.filter fun x => x ∉ added ∨ x ∈ wanted)
    ([] ++ added.filter fun a => a ∈ wanted ∧ a ∈ list)
  rw [hfold, List.nil_append]
  have hnews : ∀ a ∈ news, a ∉ list := fun a ha hmem => hnew a ha (by
    rw [List.mem_filter]
    exact ⟨hmem, by simp [hwanted a ha]⟩)
  constructor
  · refine List.nodup_append.mpr ⟨h.filter _, hnodup, ?_⟩
    rintro a ha b hb rfl
    have hlist : a ∈ list := (of_decide_eq_true (List.mem_filter.mp ha).2).2
    exact hnews a hb hlist
  · dsimp only
    rw [List.filter_append, List.filter_filter]
    have hnone : (news.filter fun x => x ∉ (added.filter fun a => a ∈ wanted ∧ a ∈ list) ++ news) =
        [] := by
      refine List.filter_eq_nil_iff.mpr fun x hx => ?_
      simp [hx]
    rw [hnone, List.append_nil]
    refine List.filter_congr fun x hx => ?_
    have hx' : x ∉ news := fun hmem => hnews x hmem hx
    by_cases ha : x ∈ added <;> by_cases hw : x ∈ wanted <;> simp [ha, hw, hx, hx']

theorem sync_entries (wanted : List Str) {added : List Str} (h : added.Nodup) {list : List Str}
    (hlist : list.Nodup) : (sync wanted added list).1.Nodup ∧
      ∀ x ∈ (sync wanted added list).1, x ∈ list ∨ x ∈ wanted := by
  unfold sync
  rw [foldl_keepStep wanted h]
  obtain ⟨news, hfold, hnodup, hnew, hwanted⟩ := foldl_addStep wanted
    (list.filter fun x => x ∉ added ∨ x ∈ wanted)
    ([] ++ added.filter fun a => a ∈ wanted ∧ a ∈ list)
  rw [hfold]
  refine ⟨List.nodup_append.mpr ⟨hlist.filter _, hnodup, ?_⟩, fun x hx => ?_⟩
  · rintro a ha b hb rfl
    exact hnew a hb ha
  · rcases List.mem_append.mp hx with hx | hx
    · exact Or.inl (List.mem_filter.mp hx).1
    · exact Or.inr (hwanted x hx)

theorem visit_keeps (env : Env) (found : Scope) (wanted : List Str) {added : List Str}
    (h : added.Nodup) (list : List Str) : Keeps added list (visit env found wanted added list) := by
  unfold visit
  split
  · exact keeps_self h
  · exact keeps_self h
  · exact sync_keeps [] h list
  · exact sync_keeps wanted h list

/-! ### The Resolver's list -/

theorem plain_of_mem_splitOnP {s w : Str} (h : w ∈ s.splitOnP separator) :
    ∀ c ∈ w, separator c = false := by
  induction s generalizing w with
  | nil =>
      rw [List.splitOnP_nil, List.mem_singleton] at h
      rw [h]
      exact fun c hc => absurd hc List.not_mem_nil
  | cons c s ih =>
      rw [List.splitOnP_cons_eq_if_modifyHead] at h
      split at h
      · rcases List.mem_cons.mp h with rfl | h
        · exact fun c hc => absurd hc List.not_mem_nil
        · exact ih h
      · rename_i hc
        cases hsplit : s.splitOnP separator with
        | nil =>
            rw [hsplit] at h
            exact absurd h List.not_mem_nil
        | cons first rest =>
            rw [hsplit, List.modifyHead_cons] at h
            rw [hsplit] at ih
            rcases List.mem_cons.mp h with rfl | h
            · intro d hd
              rcases List.mem_cons.mp hd with rfl | hd
              · exact Bool.not_eq_true _ ▸ hc
              · exact ih List.mem_cons_self d hd
            · exact ih (List.mem_cons_of_mem _ h)

theorem mem_distinct {words : List Str} {w : Str} : w ∈ distinct words ↔ w ∈ words := by
  rw [distinct, List.mem_reverse, List.mem_dedup, List.mem_reverse]

theorem nodup_distinct (words : List Str) : (distinct words).Nodup :=
  List.nodup_reverse.mpr (List.nodup_dedup _)

theorem distinct_of_nodup {words : List Str} (h : words.Nodup) : distinct words = words := by
  rw [distinct, (List.nodup_reverse.mpr h).dedup, List.reverse_reverse]

theorem plain_of_mem_tokens {s w : Str} (h : w ∈ tokens s) : Plain w := by
  rw [tokens, mem_distinct, List.mem_filter] at h
  exact ⟨of_decide_eq_true h.2, plain_of_mem_splitOnP h.1⟩

theorem splitOnP_implode {words : List Str} (h : ∀ w ∈ words, Plain w) (hne : words ≠ []) :
    (implode words).splitOnP separator = words := by
  induction words with
  | nil => exact (hne rfl).elim
  | cons w words ih =>
      obtain ⟨hw, hrest⟩ := List.forall_mem_cons.mp h
      cases words with
      | nil =>
          rw [implode, List.intercalate_singleton]
          exact List.splitOnP_eq_singleton hw.2
      | cons v words =>
          rw [implode, List.intercalate_cons_cons, List.append_assoc, List.singleton_append,
            List.splitOnP_append_cons_of_forall_mem hw.2 ',' (by decide)]
          exact congrArg (w :: ·) (ih hrest (List.cons_ne_nil _ _))

/-- A list of distinct words is read as it was written. -/
theorem tokens_implode {words : List Str} (h : ∀ w ∈ words, Plain w) (hnodup : words.Nodup) :
    tokens (implode words) = words := by
  cases words with
  | nil => rfl
  | cons w words =>
      have hfilter : ((w :: words).filter (· ≠ [])) = w :: words :=
        List.filter_eq_self.mpr fun v hv => decide_eq_true (h v hv).1
      rw [tokens, splitOnP_implode h (List.cons_ne_nil _ _), hfilter, distinct_of_nodup hnodup]

theorem plain_resolverWanted (env : Env) (active : List Str) :
    ∀ w ∈ resolverWanted env active, Plain w := by
  intro w hw
  unfold resolverWanted at hw
  split at hw
  · exact absurd hw List.not_mem_nil
  · rcases List.mem_cons.mp hw with rfl | hw
    · exact plain_of_all (List.cons_ne_nil _ _) rfl
    · obtain ⟨p, hp, rfl⟩ := List.mem_map.mp hw
      exact env.plainIds p hp

theorem visitResolver_keeps (env : Env) {record : Record}
    (h : (record.added .activeInterface).Nodup) (active : List Str) :
    Keeps (record.added .activeInterface) active (visitResolver env record active) := by
  unfold visitResolver
  split
  · exact keeps_self h
  · exact sync_keeps _ h _

/-- The interface list after an apply. -/
theorem tokens_apply (env : Env) {config : Config} {record : Record}
    (h : (record.added .activeInterface).Nodup) :
    tokens (apply env config record).1.activeInterface =
      (visitResolver env record (tokens config.activeInterface)).1 := by
  have hread : (apply env config record).1.activeInterface =
      if env.moved then config.activeInterface
      else implode (visitResolver env record (tokens config.activeInterface)).1 := rfl
  rw [hread, visitResolver]
  cases env.moved with
  | true => rfl
  | false =>
      obtain ⟨hnodup, hmem⟩ := sync_entries
        (resolverWanted env (tokens config.activeInterface)) h
        (nodup_distinct ((config.activeInterface.splitOnP separator).filter (· ≠ [])))
      refine tokens_implode (fun w hw => ?_) hnodup
      rcases hmem w hw with hw | hw
      · exact plain_of_mem_tokens hw
      · exact plain_resolverWanted env _ w hw

/-! ### The next record -/

section
variable (env : Env) (config : Config) (record : Record)

theorem settings_eq_some {s : Section} {interface : Str} {t : Settings} :
    config.settings s interface = some t ↔
      (interface, some t) ∈ (config.interfaces s).items := by
  rw [Config.settings, Option.join_eq_some_iff, Dict.get_eq_some_iff]

/-- A path names the interface of its section. -/
def ofInterface (s : Section) (interface : Str) : ListPath → Prop
  | .dnsserver s' interface' => s' = s ∧ interface' = interface
  | .radnsserver interface' => s = .dhcpdv6 ∧ interface' = interface
  | .activeInterface => False

theorem ofInterface_unique {s s' : Section} {i i' : Str} {path : ListPath}
    (h : ofInterface s i path) (h' : ofInterface s' i' path) : s = s' ∧ i = i' := by
  cases path with
  | dnsserver t j => exact ⟨h.1.symm.trans h'.1, h.2.symm.trans h'.2⟩
  | radnsserver j => exact ⟨h.1.trans h'.1.symm, h.2.symm.trans h'.2⟩
  | activeInterface => exact h.elim

theorem ofInterface_of_mem {s : Section} {interface : Str} {t : Settings}
    {p : ListPath × List Str} (h : p ∈ settingsRecord env record s interface t) :
    ofInterface s interface p.1 := by
  rcases List.mem_cons.mp h with rfl | h
  · exact ⟨rfl, rfl⟩
  · split at h
    · rename_i hs
      obtain rfl := List.mem_singleton.mp h
      exact ⟨hs, rfl⟩
    · exact absurd h List.not_mem_nil

theorem nodup_settingsRecord (s : Section) (interface : Str) (t : Settings) :
    ((settingsRecord env record s interface t).map Prod.fst).Nodup := by
  unfold settingsRecord
  split <;> simp

theorem mem_sectionRecord {s : Section} {p : ListPath × List Str} :
    p ∈ sectionRecord env config record s ↔ ∃ interface t,
      config.settings s interface = some t ∧ p ∈ settingsRecord env record s interface t := by
  unfold sectionRecord
  rw [List.mem_flatMap]
  constructor
  · rintro ⟨⟨interface, t⟩, hmem, hp⟩
    cases t with
    | none => exact absurd hp List.not_mem_nil
    | some t => exact ⟨interface, t, (settings_eq_some config).mpr hmem, hp⟩
  · rintro ⟨interface, t, ht, hp⟩
    exact ⟨(interface, some t), (settings_eq_some config).mp ht, hp⟩

theorem nodup_sectionRecord (s : Section) :
    ((sectionRecord env config record s).map Prod.fst).Nodup := by
  unfold sectionRecord
  rw [List.map_flatMap, List.nodup_flatMap]
  constructor
  · rintro ⟨interface, t⟩ _
    cases t with
    | none => exact List.nodup_nil
    | some t => exact nodup_settingsRecord env record s interface t
  · have hkeys := List.pairwise_map.mp (config.interfaces s).nodup
    refine hkeys.imp fun {p q} hne => ?_
    intro path hp hq
    have hof : ∀ p : Str × Option Settings,
        path ∈ ((p.2.map (settingsRecord env record s p.1)).getD []).map Prod.fst →
          ofInterface s p.1 path := by
      rintro ⟨interface, t⟩ h
      cases t with
      | none => exact absurd h List.not_mem_nil
      | some t =>
          obtain ⟨entry, hentry, rfl⟩ := List.mem_map.mp h
          exact ofInterface_of_mem env record hentry
    exact hne (ofInterface_unique (hof p hp) (hof q hq)).2

theorem nodup_nextRecord : ((nextRecord env config record).map Prod.fst).Nodup := by
  have hof : ∀ s path, path ∈ (sectionRecord env config record s).map Prod.fst →
      ∃ interface, ofInterface s interface path := by
    intro s path hpath
    obtain ⟨p, hp, rfl⟩ := List.mem_map.mp hpath
    obtain ⟨interface, t, -, hmem⟩ := (mem_sectionRecord env config record).mp hp
    exact ⟨interface, ofInterface_of_mem env record hmem⟩
  unfold nextRecord
  rw [List.map_append, List.map_append]
  refine List.nodup_append.mpr ⟨List.nodup_append.mpr ⟨nodup_sectionRecord env config record _,
    nodup_sectionRecord env config record _, ?_⟩, List.nodup_singleton _, ?_⟩
  · rintro a ha b hb rfl
    obtain ⟨i, hi⟩ := hof .dhcpd a ha
    obtain ⟨j, hj⟩ := hof .dhcpdv6 a hb
    cases (ofInterface_unique hi hj).1
  · rintro a ha b hb rfl
    obtain rfl := List.mem_singleton.mp hb
    rcases List.mem_append.mp ha with ha | ha
    · obtain ⟨i, hi⟩ := hof _ _ ha
      exact hi
    · obtain ⟨i, hi⟩ := hof _ _ ha
      exact hi

variable {env config record}

theorem added_of_mem {path : ListPath} {kept : List Str}
    (h : (path, kept) ∈ nextRecord env config record) :
    (apply env config record).2.added path = kept := by
  have hnodup := nodup_nextRecord env config record
  have hsub : (((nextRecord env config record).filter fun p => p.2 ≠ []).map Prod.fst).Nodup :=
    (List.filter_sublist.map Prod.fst).nodup hnodup
  unfold Record.added
  change ((Dict.empty.update ((nextRecord env config record).filter fun p => p.2 ≠ [])).get
    path).getD [] = kept
  by_cases hne : kept = []
  · rw [Dict.get_update_of_not_mem, Dict.get_empty, hne]
    · rfl
    · rintro hmem
      obtain ⟨q, hq, hpath⟩ := List.mem_map.mp hmem
      obtain ⟨hq, hqne⟩ := List.mem_filter.mp hq
      have hsame : q = (path, kept) := List.inj_on_of_nodup_map hnodup hq h hpath
      exact of_decide_eq_true hqne (by rw [hsame, hne])
  · rw [Dict.get_update_of_mem _ hsub
      (List.mem_filter.mpr ⟨h, decide_eq_true (fun heq => hne heq)⟩)]
    rfl

theorem added_of_not_mem {path : ListPath}
    (h : path ∉ (nextRecord env config record).map Prod.fst) :
    (apply env config record).2.added path = [] := by
  unfold Record.added
  change ((Dict.empty.update ((nextRecord env config record).filter fun p => p.2 ≠ [])).get
    path).getD [] = []
  rw [Dict.get_update_of_not_mem, Dict.get_empty]
  · rfl
  · exact fun hmem => h (List.map_subset _ (List.filter_subset_self _) hmem)

end

/-! ### What an apply keeps -/

theorem settings_mapValues {f : Section → Str → Settings → Settings} {config config' : Config}
    {s : Section} (h : config'.interfaces s =
      (config.interfaces s).mapValues fun i t => t.map (f s i)) (interface : Str) :
    config'.settings s interface = (config.settings s interface).map (f s interface) := by
  rw [Config.settings, Config.settings, h, Dict.get_mapValues]
  cases (config.interfaces s).get interface with
  | none => rfl
  | some t => rfl

theorem settings_apply (env : Env) (config : Config) (record : Record) (s : Section)
    (interface : Str) : (apply env config record).1.settings s interface =
      (config.settings s interface).map (applySettings env record s interface) := by
  refine settings_mapValues ?_ interface
  cases s <;> rfl

theorem servers_write (stored : Stored) (servers : List Str) :
    (stored.write servers).servers = servers := by
  have hempty : ∀ old : Stored, old.servers = [] →
      (if servers = [] then old else .list servers).servers = servers := by
    intro old hold
    split
    · next h => rw [hold, h]
    · rfl
  cases stored with
  | absent => exact hempty .absent rfl
  | scalar text =>
      cases text with
      | nil => exact hempty (.scalar []) rfl
      | cons c cs => rfl
  | list old => rfl

theorem visitRa_keeps (env : Env) {record : Record} {interface : Str}
    (h : (record.added (.radnsserver interface)).Nodup) (t : Settings) :
    Keeps (record.added (.radnsserver interface)) t.radnsserver.servers
      (visitRa env record interface t) := by
  unfold visitRa
  dsimp only
  split
  · exact visit_keeps env _ _ h _
  · exact visit_keeps env _ _ h _

theorem mem_nextRecord_of_settings (env : Env) {config : Config} (record : Record) {s : Section}
    {interface : Str} {t : Settings} (h : config.settings s interface = some t)
    {p : ListPath × List Str} (hp : p ∈ settingsRecord env record s interface t) :
    p ∈ nextRecord env config record := by
  have hmem := (mem_sectionRecord env config record).mpr ⟨interface, t, h, hp⟩
  unfold nextRecord
  cases s with
  | dhcpd => exact List.mem_append_left _ (List.mem_append_left _ hmem)
  | dhcpdv6 => exact List.mem_append_left _ (List.mem_append_right _ hmem)

theorem settings_of_mem_nextRecord {env : Env} {config : Config} {record : Record}
    {path : ListPath} (h : path ∈ (nextRecord env config record).map Prod.fst) {s : Section}
    {interface : Str} (hof : ofInterface s interface path) :
    ∃ t, config.settings s interface = some t := by
  obtain ⟨p, hp, rfl⟩ := List.mem_map.mp h
  have hcase : ∀ s', p ∈ sectionRecord env config record s' →
      ∃ t, config.settings s interface = some t := fun s' hmem => by
    obtain ⟨interface', t, ht, hmem⟩ := (mem_sectionRecord env config record).mp hmem
    obtain ⟨rfl, rfl⟩ := ofInterface_unique hof (ofInterface_of_mem env record hmem)
    exact ⟨t, ht⟩
  unfold nextRecord at hp
  rcases List.mem_append.mp hp with hp | hp
  · rcases List.mem_append.mp hp with hp | hp
    · exact hcase _ hp
    · exact hcase _ hp
  · obtain rfl := List.mem_singleton.mp hp
    exact hof.elim

/-- An apply keeps every list's own entries, and the new record names no address twice. -/
theorem apply_keeps (env : Env) (config : Config) {record : Record}
    (h : ∀ path, (record.added path).Nodup) (path : ListPath) :
    Keeps (record.added path) (config.entries path)
      ((apply env config record).1.entries path, (apply env config record).2.added path) := by
  have hmissing : ∀ {s interface}, ofInterface s interface path →
      config.settings s interface = none → (apply env config record).2.added path = [] :=
    fun hof hnone => added_of_not_mem fun hmem => by
      obtain ⟨t, ht⟩ := settings_of_mem_nextRecord hmem hof
      rw [hnone] at ht
      cases ht
  cases path with
  | dnsserver s interface =>
      rw [Config.entries, Config.entries, settings_apply]
      cases ht : config.settings s interface with
      | none =>
          rw [hmissing (s := s) ⟨rfl, rfl⟩ ht]
          exact ⟨List.nodup_nil, rfl⟩
      | some t =>
          have hmem := mem_nextRecord_of_settings env record ht List.mem_cons_self
          have hentries : (applySettings env record s interface t).dnsserver.servers =
              (visitServers env record s interface t).1 := servers_write _ _
          rw [added_of_mem hmem]
          simp only [Option.map_some, Option.getD_some, hentries]
          exact visit_keeps env _ _ (h _) _
  | radnsserver interface =>
      rw [Config.entries, Config.entries, settings_apply]
      cases ht : config.settings .dhcpdv6 interface with
      | none =>
          rw [hmissing (s := .dhcpdv6) ⟨rfl, rfl⟩ ht]
          exact ⟨List.nodup_nil, rfl⟩
      | some t =>
          have hin : (ListPath.radnsserver interface, (visitRa env record interface t).2) ∈
              settingsRecord env record .dhcpdv6 interface t :=
            List.mem_cons_of_mem _ (List.mem_singleton.mpr rfl)
          have hmem := mem_nextRecord_of_settings env record ht hin
          have hentries : (applySettings env record .dhcpdv6 interface t).radnsserver.servers =
              (visitRa env record interface t).1 := servers_write _ _
          rw [added_of_mem hmem]
          simp only [Option.map_some, Option.getD_some, hentries]
          exact visitRa_keeps env (h _) t
  | activeInterface =>
      have hmem : (ListPath.activeInterface,
          (visitResolver env record (tokens config.activeInterface)).2) ∈
          nextRecord env config record := List.mem_append_right _ (List.mem_singleton.mpr rfl)
      rw [Config.entries, Config.entries, added_of_mem hmem, tokens_apply env (h _)]
      exact visitResolver_keeps env (h _) _

/-! ### Runs -/

/-- Two lists with their elements run together, each in its order. -/
inductive Interleaved : List Str → List Str → List Str → Prop where
  | nil : Interleaved [] [] []
  | left {xs ys zs : List Str} (x : Str) : Interleaved xs ys zs →
      Interleaved (x :: xs) ys (x :: zs)
  | right {xs ys zs : List Str} (y : Str) : Interleaved xs ys zs →
      Interleaved xs (y :: ys) (y :: zs)

theorem filter_interleaved {own ours list added : List Str} (h : Interleaved own ours list)
    (hown : ∀ x ∈ own, x ∉ added) (hours : ∀ x ∈ ours, x ∈ added) :
    (list.filter fun x => x ∉ added) = own := by
  induction h with
  | nil => rfl
  | left x _ ih =>
      obtain ⟨hx, hrest⟩ := List.forall_mem_cons.mp hown
      rw [List.filter_cons_of_pos (by simpa using hx), ih hrest hours]
  | right y _ ih =>
      obtain ⟨hy, hrest⟩ := List.forall_mem_cons.mp hours
      rw [List.filter_cons_of_neg (by simpa using hy), ih hown hrest]

/-- The lists, the record, and which entries are the operator's. -/
structure System where
  config : Config
  record : Record
  own : ListPath → List Str

/-- The lists of an operator before the first apply. -/
def start (config : Config) : System := ⟨config, Dict.empty, config.entries⟩

inductive Event where
  | apply (env : Env)
  | edit (config : Config) (own : ListPath → List Str)

def step (s : System) : Event → Option System
  | .apply env =>
      let next := ListenerAdvertisements.apply env s.config s.record
      some ⟨next.1, next.2, s.own⟩
  | .edit config own => some ⟨config, s.record, own⟩

/-- What an operator may do: leave, remove or move the recorded addresses that are there, and put
among them any entries of his own that are not recorded. Interfaces come and go with their lists. -/
def Edits (s : System) : Event → Prop
  | .apply _ => True
  | .edit config own => ∀ path, ∃ ours, Interleaved (own path) ours (config.entries path) ∧
      (∀ x ∈ own path, x ∉ s.record.added path) ∧
      ∀ x ∈ ours, x ∈ s.record.added path ∧ x ∈ s.config.entries path

/-- Every list without the recorded addresses is the operator's, and nothing is recorded twice. -/
structure Removable (s : System) : Prop where
  nodup : ∀ path, (s.record.added path).Nodup
  own : ∀ path, ((s.config.entries path).filter fun x => x ∉ s.record.added path) = s.own path

theorem removable_start (config : Config) : Removable (start config) :=
  ⟨fun _ => List.nodup_nil, fun _ =>
    List.filter_eq_self.mpr fun _ _ => decide_eq_true List.not_mem_nil⟩

theorem removable_step (s : System) (e : Event) (s' : System) (h : Removable s)
    (hedits : Edits s e) (hstep : step s e = some s') : Removable s' := by
  cases e with
  | apply env =>
      obtain rfl := Option.some.inj hstep
      have hkeeps := apply_keeps env s.config h.nodup
      exact ⟨fun path => (hkeeps path).nodup, fun path => (hkeeps path).own.trans (h.own path)⟩
  | edit config own =>
      obtain rfl := Option.some.inj hstep
      refine ⟨h.nodup, fun path => ?_⟩
      obtain ⟨ours, hlist, hown, hours⟩ := hedits path
      exact filter_interleaved hlist hown fun x hx => (hours x hx).1

/-! ### Uninstall removes what is recorded -/

theorem settings_drop (config : Config) (record : Record) (s : Section) (interface : Str) :
    (drop config record).1.settings s interface =
      (config.settings s interface).map (dropSettings record s interface) := by
  refine settings_mapValues ?_ interface
  cases s <;> rfl

theorem servers_without (stored : Stored) (rest : List Str) :
    (if rest ≠ stored.servers then stored.write rest else stored).servers = rest := by
  split
  · exact servers_write stored rest
  · rename_i h
    exact (not_not.mp h).symm

/-- Dropping the advertisements leaves every list without the recorded addresses. -/
theorem entries_drop (config : Config) (record : Record) (path : ListPath) :
    (drop config record).1.entries path =
      (config.entries path).filter fun x => x ∉ record.added path := by
  cases path with
  | dnsserver s interface =>
      rw [Config.entries, Config.entries, settings_drop]
      cases config.settings s interface with
      | none => rfl
      | some t => exact servers_without _ _
  | radnsserver interface =>
      rw [Config.entries, Config.entries, settings_drop]
      cases config.settings .dhcpdv6 interface with
      | none => rfl
      | some t => exact servers_without _ _
  | activeInterface =>
      have hread : (drop config record).1.activeInterface =
          if (tokens config.activeInterface).filter (· ∉ record.added .activeInterface) ≠
              tokens config.activeInterface then
            implode ((tokens config.activeInterface).filter (· ∉ record.added .activeInterface))
          else config.activeInterface := rfl
      rw [Config.entries, Config.entries, hread]
      split
      · refine tokens_implode (fun w hw => ?_) ((nodup_distinct _).filter _)
        exact plain_of_mem_tokens (List.mem_filter.mp hw).1
      · rename_i h
        exact (not_not.mp h).symm

/-- After every run of applies and operator edits the lists without the recorded addresses are the
operator's, nothing is recorded twice, and uninstalling leaves the operator's entries. -/
theorem advertisements_removable (config : Config) {events : List Event}
    (hedits : Along step Edits (start config) events) {s : System}
    (h : run step (start config) events = some s) :
    (∀ path, ((s.config.entries path).filter fun x => x ∉ s.record.added path) = s.own path) ∧
    (∀ path, (s.record.added path).Nodup) ∧
    (∀ path, (drop s.config s.record).1.entries path = s.own path) ∧
    ∀ path, (drop s.config s.record).2.added path = [] := by
  have hremovable := run_invariant_along removable_step (removable_start config) hedits h
  refine ⟨hremovable.own, hremovable.nodup, fun path => ?_, fun _ => rfl⟩
  rw [entries_drop]
  exact hremovable.own path

/-- A listener VIP on an interface that is known. -/
def oneVip : Env where
  vips := [(['v'], ['i'])]
  plainIds := by
    intro p hp
    obtain rfl := List.mem_singleton.mp hp
    exact plain_of_all (List.cons_ne_nil _ _) rfl
  vipOnly := false
  ownAddress := fun _ _ => some ['o']
  canonical := id
  moved := false

def oneInterface : Config where
  dhcpd := Dict.empty.set ['l'] (some ⟨.list [['o']], .absent, false⟩)
  dhcpdv6 := Dict.empty
  activeInterface := ['l']

/-- The operator puts the VIP before his own server, and an interface of his own before the
Resolver's others. -/
def rearranged : Config where
  dhcpd := Dict.empty.set ['l'] (some ⟨.list [['v'], ['o']], .absent, false⟩)
  dhcpdv6 := Dict.empty
  activeInterface := implode [['m'], ['l'], lo0, ['i']]

def rearrangedOwn : ListPath → List Str
  | .dnsserver .dhcpd interface => if interface = ['l'] then [['o']] else []
  | .activeInterface => [['m'], ['l']]
  | _ => []

def applied : System :=
  let next := apply oneVip oneInterface Dict.empty
  ⟨next.1, next.2, oneInterface.entries⟩

theorem edits_rearranged : Edits applied (.edit rearranged rearrangedOwn) := by
  intro path
  cases path with
  | dnsserver s interface =>
      by_cases hi : s = .dhcpd ∧ interface = ['l']
      · obtain ⟨rfl, rfl⟩ := hi
        exact ⟨[['v']], .right _ (.left _ .nil), by decide, by decide⟩
      · have hentries : rearranged.entries (.dnsserver s interface) = [] ∧
            rearrangedOwn (.dnsserver s interface) = [] := by
          cases s with
          | dhcpd =>
              have hne : ['l'] ≠ interface := fun heq => hi ⟨rfl, heq.symm⟩
              rw [Config.entries, Config.settings, rearranged, Config.interfaces,
                Dict.get_set_of_ne _ _ hne, rearrangedOwn, if_neg hne.symm]
              exact ⟨rfl, rfl⟩
          | dhcpdv6 => exact ⟨rfl, rfl⟩
        rw [hentries.1, hentries.2]
        exact ⟨[], .nil, by simp, by simp⟩
  | radnsserver interface => exact ⟨[], .nil, by simp [rearrangedOwn], by simp⟩
  | activeInterface =>
      refine ⟨[lo0, ['i']], ?_, by decide, by decide⟩
      have htokens : rearranged.entries .activeInterface = [['m'], ['l'], lo0, ['i']] := by decide
      rw [htokens]
      exact .left _ (.left _ (.right _ (.right _ .nil)))

/-- The VIP is added behind the operator's entry, moved by the operator and kept by the next apply;
uninstalling removes it, and what was added to the Resolver's list. -/
theorem advertisements_removable_rearranged :
    ∃ s, run step (start oneInterface)
        [.apply oneVip, .edit rearranged rearrangedOwn, .apply oneVip] = some s ∧
      s.config.entries (.dnsserver .dhcpd ['l']) = [['v'], ['o']] ∧
      s.record.added (.dnsserver .dhcpd ['l']) = [['v']] ∧
      (drop s.config s.record).1.entries (.dnsserver .dhcpd ['l']) = [['o']] ∧
      (drop s.config s.record).1.entries .activeInterface = [['m'], ['l']] := by
  have hedits : Along step Edits (start oneInterface)
      [.apply oneVip, .edit rearranged rearrangedOwn, .apply oneVip] :=
    ⟨trivial, edits_rearranged, trivial, trivial⟩
  have hdrop := (advertisements_removable oneInterface hedits rfl).2.2.1
  exact ⟨_, rfl, by decide, by decide, hdrop (.dnsserver .dhcpd ['l']), hdrop .activeInterface⟩

end PfBlockerNG.ListenerAdvertisements
