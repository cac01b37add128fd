import PfBlockerNG.OrderedDict
import PfBlockerNG.Strings
import PfBlockerNG.Transitions

/-!
The DNSBL control commands and the timers they start. A timer is a detached thread
whose only guard is the thread-name check made when it starts.
-/

namespace PfBlockerNG.ControlTimers

open PfBlockerNG.OrderedDict
open PfBlockerNG.Strings
open PfBlockerNG.Transitions

/-- What a timer does when its sleep is over. -/
inductive Action where
  | reenable
  | unbypass (ip : Str)
  deriving DecidableEq, Repr

/-- A timer thread; `since` counts the commands handled up to its own. -/
structure Thread where
  name : Str
  action : Action
  since : Nat
  expired : Bool
  deriving DecidableEq, Repr

/-- One handled command and its verdict. -/
structure Entry where
  tokens : List Str
  applied : Bool
  deriving DecidableEq, Repr

structure Control where
  pythonBlacklist : Bool
  gpListActive : Bool
  gpListDB : Dict Str Nat
  threads : List Thread
  journal : List Entry

/-- Services of the interpreter: `ipaddress.ip_address` accepts, a decimal digit's value,
and whether thread support was imported. -/
structure Platform where
  ipAddress : Str → Bool
  decimal : Char → Option Nat
  modThreading : Bool

variable (py : Platform)

/-- `int(duration)` of a text of decimal digits; `int` refuses more than 4300 of them. -/
def intOf (digits : Str) : Option Nat :=
  if digits.isEmpty || 4300 < digits.length then none
  else digits.foldl (fun n c => n.bind fun n => (py.decimal c).map (n * 10 + ·)) (some 0)

/-- `python_control_duration`. -/
def pythonControlDuration (duration : Str) : Option Nat :=
  (intOf py duration).filter fun value => 0 < value && value ≤ 3600

/-- `python_control_thread`. -/
def pythonControlThread (s : Control) (name : Str) : Bool := s.threads.any (·.name == name)

def startThread (s : Control) (name : Str) (action : Action) : Control :=
  { s with threads := s.threads ++ [⟨name, action, s.journal.length + 1, false⟩] }

def sleepName : Str := "sleep".toList

def bypassName (ip : Str) : Str := "addbypass".toList ++ ip

def outOfRange (text : Str) : Str :=
  "duration [ ".toList ++ text ++ " ] out of range (1-3600sec)".toList

def forSeconds (message : Str) (duration : Nat) : Str :=
  message ++ " for ".toList ++ Nat.toDigits 10 duration ++ " second(s)".toList

/-- The `disable` arm; `starts` is the outcome of starting a thread. -/
def disable (tokens : List Str) (starts : Bool) (s : Control) : Control × Bool × Str :=
  let message := "Python_control: DNSBL disabled".toList
  let s := { s with pythonBlacklist := false }
  match tokens with
  | [_, _, text] =>
      if !py.modThreading || text.isEmpty then (s, true, message)
      else
        match pythonControlDuration py text with
        | none => (s, false, message ++ ": ".toList ++ outOfRange text)
        | some duration =>
            if pythonControlThread s sleepName then
              (s, false, message ++ ": Previous call still in progress".toList)
            else if starts then
              (startThread s sleepName .reenable, true, forSeconds message duration)
            else (s, false, message ++ ": Thread failed".toList)
  | _ => (s, true, message)

def setBypass (s : Control) (ip : Str) : Control := { s with gpListDB := s.gpListDB.set ip 0 }

def addBypass (tokens : List Str) (starts : Bool) (ip : Str) (s : Control) :
    Control × Bool × Str :=
  let message := "Python_control: Add bypass for IP: [ ".toList ++ ip ++ " ]".toList
  match tokens with
  | [_, _, _, text] =>
      if !py.modThreading || text.isEmpty then (setBypass s ip, true, message)
      else
        match pythonControlDuration py text with
        | none => (s, false, message ++ ": ".toList ++ outOfRange text)
        | some duration =>
            if pythonControlThread s (bypassName ip) then
              (s, false, message ++ ": Previous call still in progress".toList)
            else if starts then
              (setBypass (startThread s (bypassName ip) (.unbypass ip)) ip, true,
                forSeconds message duration)
            else (s, false, message ++ " thread failed".toList)
  | _ => (setBypass s ip, true, message)

def removeBypass (ip : Str) (s : Control) : Control × Bool × Str :=
  if (s.gpListDB.get ip).isSome then
    ({ s with gpListDB := s.gpListDB.pop ip }, true,
      "Python_control: Remove bypass for IP: [ ".toList ++ ip ++ " ]".toList)
  else (s, true, "Python_control: IP not in Group Policy: [ ".toList ++ ip ++ " ]".toList)

def disableVerb : Str := "disable".toList
def enableVerb : Str := "enable".toList
def addBypassVerb : Str := "addbypass".toList
def removeBypassVerb : Str := "removebypass".toList

/-- `.replace("-", ".")`. -/
def dotted (text : Str) : Str := text.map fun c => if c = '-' then '.' else c

/-- `pfb_apply_control_command`: the new state, whether the command was applied, and the
message. -/
def applyControlCommand (tokens : List Str) (starts : Bool) (s : Control) :
    Control × Bool × Str :=
  match tokens with
  | _ :: verb :: rest =>
      if verb = disableVerb then disable py tokens starts s
      else if verb = enableVerb then
        ({ s with pythonBlacklist := true }, true, "Python_control: DNSBL enabled".toList)
      else if verb = addBypassVerb ∨ verb = removeBypassVerb then
        match rest with
        | [] => (s, false, "Python_control: Missing bypass IP".toList)
        | text :: _ =>
            if text.isEmpty then (s, false, "Python_control: Missing bypass IP".toList)
            else
              let ip := dotted text
              if py.ipAddress ip then
                let s := { s with gpListActive := true }
                if verb = addBypassVerb then addBypass py tokens starts ip s
                else removeBypass ip s
              else (s, false, "Python_control: Invalid IP: [ ".toList ++ ip ++ " ]".toList)
      else (s, false, [])
  | _ => (s, false, [])

/-- What the body of a timer does after its sleep: `python_control_sleep` and
`python_control_addbypass`. -/
def fire (action : Action) (s : Control) : Control :=
  match action with
  | .reenable => { s with pythonBlacklist := true }
  | .unbypass ip =>
      if (s.gpListDB.get ip).isSome then { s with gpListDB := s.gpListDB.pop ip } else s

inductive Event where
  | command (tokens : List Str) (starts : Bool)
  | expire (thread : Thread)
  | exit (thread : Thread)

/-- One event: a command, a timer whose sleep ends, or an expired thread that is gone. -/
def step (s : Control) : Event → Option Control
  | .command tokens starts =>
      let (s', applied, _) := applyControlCommand py tokens starts s
      some { s' with journal := s.journal ++ [⟨tokens, applied⟩] }
  | .expire thread =>
      if thread ∈ s.threads ∧ thread.expired = false then
        some { fire thread.action s with
          threads := s.threads.map fun t => if t = thread then { t with expired := true } else t }
      else none
  | .exit thread =>
      if thread ∈ s.threads ∧ thread.expired = true then
        some { s with threads := s.threads.filter (· ≠ thread) }
      else none

/-! ### What a command leaves for a timer to undo -/

def Action.name : Action → Str
  | .reenable => sleepName
  | .unbypass ip => bypassName ip

/-- There is something for the timer to undo. -/
def Action.pending (s : Control) : Action → Bool
  | .reenable => !s.pythonBlacklist
  | .unbypass ip => (s.gpListDB.get ip).isSome

theorem pending_congr {s s' : Control} (hblacklist : s'.pythonBlacklist = s.pythonBlacklist)
    (hdb : s'.gpListDB = s.gpListDB) (action : Action) : action.pending s' = action.pending s := by
  cases action with
  | reenable => simp [Action.pending, hblacklist]
  | unbypass ip => simp [Action.pending, hdb]

/-- Value a `disable` or `enable`, applied or refused, gives to `python_blacklist`. -/
def switchOf : List Str → Option Bool
  | _ :: verb :: _ =>
      if verb = disableVerb then some false else if verb = enableVerb then some true else none
  | _ => none

/-- Whether an applied command leaves `ip` bypassed, when it is about `ip`. -/
def bypassOf (ip : Str) (entry : Entry) : Option Bool :=
  match entry.tokens with
  | _ :: verb :: text :: _ =>
      if entry.applied ∧ dotted text = ip then
        if verb = addBypassVerb then some true
        else if verb = removeBypassVerb then some false else none
      else none
  | _ => none

def effectOf (entry : Entry) : Action → Option Bool
  | .reenable => (switchOf entry.tokens).map (!·)
  | .unbypass ip => bypassOf ip entry

/-- The last effect of the commands on what the timer would undo. -/
def lastEffect (action : Action) (entries : List Entry) : Option Bool :=
  (entries.filterMap (effectOf · action)).getLast?

theorem lastEffect_concat (action : Action) (entries : List Entry) (entry : Entry) :
    lastEffect action (entries ++ [entry]) =
      (effectOf entry action).or (lastEffect action entries) := by
  cases h : effectOf entry action <;> simp [lastEffect, h]

/-- The command that started a timer. -/
def StartedBy (entry : Entry) : Action → Prop
  | .reenable => ∃ a d, entry = ⟨[a, disableVerb, d], true⟩
  | .unbypass ip => ∃ a text d, entry = ⟨[a, addBypassVerb, text, d], true⟩ ∧ dotted text = ip

/-- What one command does to the state. -/
structure CommandSpec (tokens : List Str) (s : Control) (r : Control × Bool × Str) : Prop where
  pending : ∀ action : Action,
    action.pending r.1 = (effectOf ⟨tokens, r.2.1⟩ action).getD (action.pending s)
  journal : r.1.journal = s.journal
  threads : r.1.threads = s.threads ∨ ∃ action : Action,
    r.1.threads = s.threads ++ [⟨action.name, action, s.journal.length + 1, false⟩] ∧
      action.name ∉ s.threads.map (·.name) ∧ action.pending r.1 = true ∧
      StartedBy ⟨tokens, r.2.1⟩ action

theorem pythonControlThread_eq_false {s : Control} {name : Str}
    (h : pythonControlThread s name ≠ true) : name ∉ s.threads.map (·.name) := by
  simpa [pythonControlThread] using h

theorem effectOf_disable {a : Str} {rest : List Str} {applied : Bool} (action : Action) :
    effectOf ⟨a :: disableVerb :: rest, applied⟩ action =
      match action with
      | .reenable => some true
      | .unbypass _ => none := by
  cases action with
  | reenable => simp [effectOf, switchOf]
  | unbypass ip =>
      have h₁ : disableVerb ≠ addBypassVerb := by decide
      have h₂ : disableVerb ≠ removeBypassVerb := by decide
      cases rest <;> simp [effectOf, bypassOf, h₁, h₂]

theorem disable_spec (a : Str) (rest : List Str) (starts : Bool) (s : Control) :
    CommandSpec (a :: disableVerb :: rest) s (disable py (a :: disableVerb :: rest) starts s) := by
  have hpending : ∀ (applied : Bool) (r : Control), r.pythonBlacklist = false →
      r.gpListDB = s.gpListDB → ∀ action : Action,
        action.pending r =
          (effectOf ⟨a :: disableVerb :: rest, applied⟩ action).getD (action.pending s) := by
    intro applied r hblacklist hdb action
    rw [effectOf_disable]
    cases action with
    | reenable => simp [Action.pending, hblacklist]
    | unbypass ip => simp [Action.pending, hdb]
  unfold disable
  split
  · rename_i a' v text htokens
    simp only [List.cons.injEq] at htokens
    obtain ⟨rfl, rfl, rfl⟩ := htokens
    simp only
    split
    · exact ⟨hpending _ _ rfl rfl, rfl, Or.inl rfl⟩
    · split
      · exact ⟨hpending _ _ rfl rfl, rfl, Or.inl rfl⟩
      · split
        · exact ⟨hpending _ _ rfl rfl, rfl, Or.inl rfl⟩
        · rename_i hthread
          split
          · exact ⟨hpending _ _ rfl rfl, rfl, Or.inr ⟨.reenable, rfl,
              pythonControlThread_eq_false hthread, rfl, ⟨_, _, rfl⟩⟩⟩
          · exact ⟨hpending _ _ rfl rfl, rfl, Or.inl rfl⟩
  · exact ⟨hpending _ _ rfl rfl, rfl, Or.inl rfl⟩

theorem effectOf_bypass {a verb text : Str} {rest : List Str} (hverb : verb = addBypassVerb ∨
    verb = removeBypassVerb) (action : Action) :
    effectOf ⟨a :: verb :: text :: rest, true⟩ action =
      if action = .unbypass (dotted text) then some (decide (verb = addBypassVerb)) else none := by
  have hne : addBypassVerb ≠ removeBypassVerb := by decide
  cases action with
  | reenable =>
      have h₁ : addBypassVerb ≠ disableVerb := by decide
      have h₂ : addBypassVerb ≠ enableVerb := by decide
      have h₃ : removeBypassVerb ≠ disableVerb := by decide
      have h₄ : removeBypassVerb ≠ enableVerb := by decide
      rcases hverb with rfl | rfl <;> simp [effectOf, switchOf, h₁, h₂, h₃, h₄]
  | unbypass ip =>
      by_cases hip : dotted text = ip
      · rcases hverb with rfl | rfl <;> simp [effectOf, bypassOf, hip, hne.symm]
      · simp [effectOf, bypassOf, hip, Ne.symm hip]

theorem effectOf_bypass_refused {a verb : Str} {rest : List Str}
    (hverb : verb = addBypassVerb ∨ verb = removeBypassVerb) (action : Action) :
    effectOf ⟨a :: verb :: rest, false⟩ action = none := by
  cases action with
  | reenable =>
      have h₁ : addBypassVerb ≠ disableVerb := by decide
      have h₂ : addBypassVerb ≠ enableVerb := by decide
      have h₃ : removeBypassVerb ≠ disableVerb := by decide
      have h₄ : removeBypassVerb ≠ enableVerb := by decide
      rcases hverb with rfl | rfl <;> simp [effectOf, switchOf, h₁, h₂, h₃, h₄]
  | unbypass ip => cases rest <;> simp [effectOf, bypassOf]

theorem pending_setBypass (s : Control) (ip : Str) (action : Action) :
    action.pending (setBypass s ip) = if action = .unbypass ip then true else action.pending s := by
  cases action with
  | reenable => rfl
  | unbypass ip' =>
      by_cases h : ip = ip'
      · simp [Action.pending, setBypass, h]
      · simp [Action.pending, setBypass, Dict.get_set, h, Ne.symm h]

theorem pending_pop (s : Control) (ip : Str) (action : Action) :
    action.pending { s with gpListDB := s.gpListDB.pop ip } =
      if action = .unbypass ip then false else action.pending s := by
  cases action with
  | reenable => rfl
  | unbypass ip' =>
      by_cases h : ip = ip'
      · simp [Action.pending, Dict.get_pop, h]
      · simp [Action.pending, Dict.get_pop, h, Ne.symm h]

theorem addBypass_spec (a text : Str) (rest : List Str) (starts : Bool) (s : Control) :
    CommandSpec (a :: addBypassVerb :: text :: rest) s
      (addBypass py (a :: addBypassVerb :: text :: rest) starts (dotted text) s) := by
  have hstored : ∀ (r : Control), r.pythonBlacklist = s.pythonBlacklist →
      r.gpListDB = s.gpListDB → ∀ action : Action,
        action.pending (setBypass r (dotted text)) =
          (effectOf ⟨a :: addBypassVerb :: text :: rest, true⟩ action).getD (action.pending s) := by
    intro r hblacklist hdb action
    rw [effectOf_bypass (Or.inl rfl), pending_setBypass, pending_congr hblacklist hdb]
    split <;> simp
  have hrefused : ∀ action : Action, action.pending s =
      (effectOf ⟨a :: addBypassVerb :: text :: rest, false⟩ action).getD (action.pending s) := by
    intro action
    rw [effectOf_bypass_refused (Or.inl rfl)]
    rfl
  unfold addBypass
  split
  · rename_i a' v t duration htokens
    simp only [List.cons.injEq] at htokens
    obtain ⟨rfl, rfl, rfl, rfl⟩ := htokens
    simp only
    split
    · exact ⟨hstored s rfl rfl, rfl, Or.inl rfl⟩
    · split
      · exact ⟨hrefused, rfl, Or.inl rfl⟩
      · split
        · exact ⟨hrefused, rfl, Or.inl rfl⟩
        · rename_i hthread
          split
          · exact ⟨hstored _ rfl rfl, rfl, Or.inr ⟨.unbypass (dotted text), rfl,
              pythonControlThread_eq_false hthread, by simp [pending_setBypass],
              ⟨_, _, _, rfl, rfl⟩⟩⟩
          · exact ⟨hrefused, rfl, Or.inl rfl⟩
  · exact ⟨hstored s rfl rfl, rfl, Or.inl rfl⟩

theorem removeBypass_spec (a text : Str) (rest : List Str) (s : Control) :
    CommandSpec (a :: removeBypassVerb :: text :: rest) s (removeBypass (dotted text) s) := by
  have hne : removeBypassVerb ≠ addBypassVerb := by decide
  unfold removeBypass
  split
  · refine ⟨fun action => ?_, rfl, Or.inl rfl⟩
    rw [effectOf_bypass (Or.inr rfl), pending_pop]
    split <;> simp [hne]
  · rename_i habsent
    refine ⟨fun action => ?_, rfl, Or.inl rfl⟩
    rw [effectOf_bypass (Or.inr rfl)]
    split
    · rename_i haction
      subst haction
      simpa [Action.pending, hne] using habsent
    · rfl

theorem CommandSpec.refused {tokens : List Str} {s : Control} {message : Str}
    (h : ∀ action : Action, effectOf ⟨tokens, false⟩ action = none) :
    CommandSpec tokens s (s, false, message) :=
  ⟨fun action => by rw [h]; rfl, rfl, Or.inl rfl⟩

theorem CommandSpec.of_active {tokens : List Str} {s : Control} {r : Control × Bool × Str}
    (h : CommandSpec tokens { s with gpListActive := true } r) : CommandSpec tokens s r :=
  ⟨fun action => (h.pending action).trans (congrArg _ (pending_congr rfl rfl action)), h.journal,
    h.threads⟩

/-- What a command leaves behind is decided by its verb and its verdict, and a thread is
started only for a fresh name. -/
theorem applyControlCommand_spec (tokens : List Str) (starts : Bool) (s : Control) :
    CommandSpec tokens s (applyControlCommand py tokens starts s) := by
  unfold applyControlCommand
  split
  · rename_i a verb rest
    split
    · rename_i hverb
      subst hverb
      exact disable_spec py a rest starts s
    · rename_i hdisable
      split
      · rename_i henable
        subst henable
        refine ⟨fun action => ?_, rfl, Or.inl rfl⟩
        have h₁ : enableVerb ≠ addBypassVerb := by decide
        have h₂ : enableVerb ≠ removeBypassVerb := by decide
        cases action with
        | reenable => simp [Action.pending, effectOf, switchOf, hdisable]
        | unbypass ip => cases rest <;> simp [Action.pending, effectOf, bypassOf, h₁, h₂]
      · rename_i henable
        split
        · rename_i hverb
          split
          · exact .refused (effectOf_bypass_refused hverb)
          · rename_i text rest
            split
            · exact .refused (effectOf_bypass_refused hverb)
            · simp only
              split
              · refine .of_active ?_
                split
                · rename_i hadd
                  subst hadd
                  exact addBypass_spec py a text rest starts _
                · rename_i hadd
                  obtain rfl := hverb.resolve_left hadd
                  exact removeBypass_spec a text rest _
              · exact .refused (effectOf_bypass_refused hverb)
        · refine .refused fun action => ?_
          cases action with
          | reenable => simp [effectOf, switchOf, hdisable, henable]
          | unbypass ip => cases rest <;> simp [effectOf, bypassOf]
  · rename_i hshort
    refine .refused fun action => ?_
    rcases tokens with _ | ⟨a, _ | ⟨verb, rest⟩⟩
    · cases action <;> rfl
    · cases action <;> rfl
    · exact absurd rfl (hshort a verb rest)

/-! ### Rejected commands -/

/-- The interpreter on plain ASCII text, with addresses in dotted decimal. -/
def asciiPlatform : Platform where
  ipAddress := fun ip => (splitDots ip).length == 4 &&
    (splitDots ip).all fun octet => !octet.isEmpty && octet.all Char.isDigit
  decimal := fun c => if c.isDigit then some (c.toNat - 48) else none
  modThreading := true

def idle : Control :=
  { pythonBlacklist := true, gpListActive := false, gpListDB := Dict.empty, threads := [],
    journal := [] }

/-- The bypassed addresses and the timers stand as they stood. -/
structure Spared (s s' : Control) : Prop where
  gpListDB : s'.gpListDB = s.gpListDB
  threads : s'.threads = s.threads

theorem disable_switches (tokens : List Str) (starts : Bool) (s : Control) :
    (disable py tokens starts s).1.pythonBlacklist = false := by
  unfold disable
  split
  · dsimp only
    split
    · rfl
    · split
      · rfl
      · split
        · rfl
        · split <;> rfl
  · rfl

theorem disable_rejected {tokens : List Str} {starts : Bool} {s : Control}
    (h : (disable py tokens starts s).2.1 = false) :
    Spared s (disable py tokens starts s).1 := by
  unfold disable at h ⊢
  split at h
  · dsimp only at h ⊢
    split at h
    · cases h
    · rename_i hactive
      rw [if_neg hactive]
      split at h
      · exact ⟨rfl, rfl⟩
      · split at h
        · rename_i hthread
          rw [if_pos hthread]
          exact ⟨rfl, rfl⟩
        · rename_i hthread
          rw [if_neg hthread]
          split at h
          · cases h
          · rename_i hstarts
            rw [if_neg hstarts]
            exact ⟨rfl, rfl⟩
  · cases h

/-- An `addbypass` that is rejected has not got as far as the list. -/
theorem addBypass_rejected {tokens : List Str} {starts : Bool} {ip : Str} {s : Control}
    (h : (addBypass py tokens starts ip s).2.1 = false) :
    (addBypass py tokens starts ip s).1 = s := by
  unfold addBypass at h ⊢
  split at h
  · dsimp only at h ⊢
    split at h
    · cases h
    · rename_i hactive
      rw [if_neg hactive]
      split at h
      · rfl
      · split at h
        · rename_i hthread
          rw [if_pos hthread]
        · rename_i hthread
          rw [if_neg hthread]
          split at h
          · cases h
          · rename_i hstarts
            rw [if_neg hstarts]
  · cases h

theorem removeBypass_applied (ip : Str) (s : Control) : (removeBypass ip s).2.1 = true := by
  unfold removeBypass
  split <;> rfl

/-- The verb of a command. -/
def verbOf : List Str → Option Str
  | _ :: verb :: _ => some verb
  | _ => none

/-- A rejected command leaves the bypassed addresses and the timers as they are. It leaves the
switch too, unless it is a `disable`, which is in force even when its timer is refused. -/
theorem rejected_spares_bypasses {tokens : List Str} {starts : Bool} {s : Control}
    (h : (applyControlCommand py tokens starts s).2.1 = false) :
    Spared s (applyControlCommand py tokens starts s).1 ∧
      (applyControlCommand py tokens starts s).1.pythonBlacklist =
        if verbOf tokens = some disableVerb then false else s.pythonBlacklist := by
  unfold applyControlCommand at h ⊢
  split at h
  · rename_i a verb rest
    dsimp only [verbOf]
    simp only [Option.some.injEq]
    split at h
    · rename_i hverb
      rw [if_pos hverb, if_pos hverb]
      exact ⟨disable_rejected py h, disable_switches py _ _ _⟩
    · rename_i hdisable
      rw [if_neg hdisable, if_neg hdisable]
      split at h
      · cases h
      · rename_i henable
        rw [if_neg henable]
        split at h
        · rename_i hverb
          rw [if_pos hverb]
          split at h
          · exact ⟨⟨rfl, rfl⟩, rfl⟩
          · dsimp only at h ⊢
            split at h
            · rename_i hempty
              rw [if_pos hempty]
              exact ⟨⟨rfl, rfl⟩, rfl⟩
            · rename_i hempty
              rw [if_neg hempty]
              split at h
              · rename_i hip
                rw [if_pos hip]
                split at h
                · rename_i hadd
                  rw [if_pos hadd, addBypass_rejected py h]
                  exact ⟨⟨rfl, rfl⟩, rfl⟩
                · rw [removeBypass_applied] at h
                  cases h
              · rename_i hip
                rw [if_neg hip]
                exact ⟨⟨rfl, rfl⟩, rfl⟩
        · rename_i hverb
          rw [if_neg hverb]
          exact ⟨⟨rfl, rfl⟩, rfl⟩
  · rename_i hshort
    have hnone : verbOf tokens = none := by
      rcases tokens with _ | ⟨a, _ | ⟨verb, rest⟩⟩
      · rfl
      · rfl
      · exact absurd rfl (hshort a verb rest)
    rw [hnone]
    exact ⟨⟨rfl, rfl⟩, rfl⟩

/-- A rejected command changes nothing. -/
def RejectedChangesNothing : Prop :=
  ∀ tokens starts s, (applyControlCommand py tokens starts s).2.1 = false →
    (applyControlCommand py tokens starts s).1.pythonBlacklist = s.pythonBlacklist ∧
      Spared s (applyControlCommand py tokens starts s).1

/-- A `disable` for 3601 seconds is rejected and switches the blocking off. -/
theorem rejected_disable_switches : ¬ RejectedChangesNothing asciiPlatform := by
  intro h
  have hswitch := (h ["python_control".toList, disableVerb, "3601".toList] true idle rfl).1
  exact absurd hswitch (by decide)

/-- An address is bypassed, and the timer that ends its bypass sleeps. -/
def bypassing : Control :=
  (applyControlCommand asciiPlatform
    ["python_control".toList, addBypassVerb, "10.0.0.1".toList, "10".toList] true idle).1

theorem rejected_spares_bypasses_sleeping :
    bypassing.threads.length = 1 ∧ (bypassing.gpListDB.get "10.0.0.1".toList).isSome = true ∧
      Spared bypassing (applyControlCommand asciiPlatform
        ["python_control".toList, disableVerb, "3601".toList] true bypassing).1 ∧
      (applyControlCommand asciiPlatform
        ["python_control".toList, disableVerb, "3601".toList] true bypassing).1.pythonBlacklist =
          false :=
  ⟨by decide, by decide, rejected_spares_bypasses asciiPlatform
    (show (applyControlCommand asciiPlatform
      ["python_control".toList, disableVerb, "3601".toList] true bypassing).2.1 = false from rfl)⟩

/-! ### Runs -/

/-- The invariant of every run: a timer that sleeps has something to undo unless a later
command left nothing. -/
structure Timed (s : Control) : Prop where
  names : ∀ t ∈ s.threads, t.name = t.action.name
  nodup : (s.threads.map (·.name)).Nodup
  since : ∀ t ∈ s.threads, 0 < t.since ∧ t.since ≤ s.journal.length
  started : ∀ t ∈ s.threads, ∃ entry, s.journal[t.since - 1]? = some entry ∧
    StartedBy entry t.action
  pending : ∀ t ∈ s.threads, t.expired = false →
    t.action.pending s = (lastEffect t.action (s.journal.drop t.since)).getD true

theorem timed_initial {s : Control} (hthreads : s.threads = []) : Timed s where
  names := by simp [hthreads]
  nodup := by simp [hthreads]
  since := by simp [hthreads]
  started := by simp [hthreads]
  pending := by simp [hthreads]

theorem timed_command {tokens : List Str} {s : Control} {r : Control × Bool × Str}
    (hs : Timed s) (h : CommandSpec tokens s r) :
    Timed { r.1 with journal := s.journal ++ [⟨tokens, r.2.1⟩] } := by
  have hkept : ∀ t ∈ s.threads, t.expired = false → t.action.pending r.1 =
      (lastEffect t.action
        ((s.journal ++ [(⟨tokens, r.2.1⟩ : Entry)]).drop t.since)).getD true := by
    intro t ht hsleeps
    rw [List.drop_append_of_le_length (hs.since t ht).2, lastEffect_concat, h.pending,
      hs.pending t ht hsleeps]
    cases effectOf ⟨tokens, r.2.1⟩ t.action <;> rfl
  have hstarted : ∀ t ∈ s.threads, ∃ entry,
      (s.journal ++ [(⟨tokens, r.2.1⟩ : Entry)])[t.since - 1]? = some entry ∧
        StartedBy entry t.action := by
    intro t ht
    obtain ⟨entry, hget, hby⟩ := hs.started t ht
    have hlt : t.since - 1 < s.journal.length := by
      have := hs.since t ht
      omega
    exact ⟨entry, by rw [List.getElem?_append_left hlt, hget], hby⟩
  have hsince : ∀ t ∈ s.threads, 0 < t.since ∧
      t.since ≤ (s.journal ++ [(⟨tokens, r.2.1⟩ : Entry)]).length := by
    intro t ht
    have := hs.since t ht
    simp only [List.length_append, List.length_singleton]
    omega
  rcases h.threads with hsame | ⟨action, hnew, hfresh, hundo, hby⟩
  · refine ⟨?_, ?_, ?_, ?_, ?_⟩ <;> simp only [hsame]
    · exact hs.names
    · exact hs.nodup
    · exact hsince
    · exact hstarted
    · exact fun t ht hsleeps => (pending_congr rfl rfl t.action).trans (hkept t ht hsleeps)
  · refine ⟨?_, ?_, ?_, ?_, ?_⟩ <;>
      simp only [hnew, List.mem_append, List.mem_singleton, List.map_append, List.map_cons,
        List.map_nil]
    · rintro t (ht | rfl)
      · exact hs.names t ht
      · rfl
    · refine List.nodup_append.mpr ⟨hs.nodup, List.nodup_singleton _, ?_⟩
      intro x hx y hy
      rw [List.mem_singleton] at hy
      rintro rfl
      exact hfresh (hy ▸ hx)
    · rintro t (ht | rfl)
      · exact hsince t ht
      · simp
    · rintro t (ht | rfl)
      · exact hstarted t ht
      · exact ⟨⟨tokens, r.2.1⟩, by simp, hby⟩
    · rintro t (ht | rfl) hsleeps
      · exact (pending_congr rfl rfl t.action).trans (hkept t ht hsleeps)
      · refine (pending_congr rfl rfl action).trans (hundo.trans ?_)
        simp [lastEffect]

theorem name_injective {a b : Action} (h : a.name = b.name) : a = b := by
  cases a with
  | reenable =>
      cases b with
      | reenable => rfl
      | unbypass ip => cases h
  | unbypass ip =>
      cases b with
      | reenable => cases h
      | unbypass ip' =>
          congr 1
          exact List.append_cancel_left h

/-- A timer touches only what it is there to undo. -/
theorem pending_fire (a b : Action) (s : Control) (h : b ≠ a) :
    b.pending (fire a s) = b.pending s := by
  cases a with
  | reenable =>
      cases b with
      | reenable => exact absurd rfl h
      | unbypass ip => rfl
  | unbypass ip =>
      simp only [fire]
      split
      · rw [pending_pop, if_neg h]
      · rfl

theorem fire_journal (a : Action) (s : Control) : (fire a s).journal = s.journal := by
  cases a with
  | reenable => rfl
  | unbypass ip =>
      simp only [fire]
      split <;> rfl

theorem eq_of_name_eq {s : Control} (hs : Timed s) {t u : Thread} (ht : t ∈ s.threads)
    (hu : u ∈ s.threads) (h : t.name = u.name) : t = u :=
  List.inj_on_of_nodup_map hs.nodup ht hu h

theorem timed_expire {s : Control} (hs : Timed s) {thread : Thread} (hmem : thread ∈ s.threads) :
    Timed { fire thread.action s with
      threads := s.threads.map fun t => if t = thread then { t with expired := true } else t } := by
  have hjournal := fire_journal thread.action s
  have hfields : ∀ t : Thread,
      (if t = thread then { t with expired := true } else t).name = t.name ∧
        (if t = thread then { t with expired := true } else t).action = t.action ∧
        (if t = thread then { t with expired := true } else t).since = t.since := by
    intro t
    split <;> exact ⟨rfl, rfl, rfl⟩
  refine ⟨?_, ?_, ?_, ?_, ?_⟩ <;>
    simp only [hjournal, List.mem_map, forall_exists_index, and_imp, forall_apply_eq_imp_iff₂]
  · intro t ht
    rw [(hfields t).1, (hfields t).2.1]
    exact hs.names t ht
  · rw [List.map_map]
    refine (List.map_congr_left fun t _ => ?_) ▸ hs.nodup
    exact ((hfields t).1).symm
  · intro t ht
    rw [(hfields t).2.2]
    exact hs.since t ht
  · intro t ht
    rw [(hfields t).2.2, (hfields t).2.1]
    exact hs.started t ht
  · intro t ht hsleeps
    by_cases heq : t = thread
    · simp [heq] at hsleeps
    · rw [if_neg heq] at hsleeps ⊢
      have hne : t.action ≠ thread.action := by
        intro haction
        exact heq (eq_of_name_eq hs ht hmem (by rw [hs.names t ht, hs.names thread hmem, haction]))
      exact (pending_congr rfl rfl t.action).trans
        ((pending_fire thread.action t.action s hne).trans (hs.pending t ht hsleeps))

theorem timed_exit {s : Control} (hs : Timed s) (thread : Thread) :
    Timed { s with threads := s.threads.filter (· ≠ thread) } where
  names := fun t ht => hs.names t (List.mem_of_mem_filter ht)
  nodup := hs.nodup.sublist (List.filter_sublist.map _)
  since := fun t ht => hs.since t (List.mem_of_mem_filter ht)
  started := fun t ht => hs.started t (List.mem_of_mem_filter ht)
  pending := fun t ht hsleeps =>
    (pending_congr rfl rfl t.action).trans (hs.pending t (List.mem_of_mem_filter ht) hsleeps)

theorem timed_step (s : Control) (e : Event) (s' : Control) (hs : Timed s)
    (h : step py s e = some s') : Timed s' := by
  cases e with
  | command tokens starts =>
      obtain rfl := Option.some.inj h
      exact timed_command hs (applyControlCommand_spec py tokens starts s)
  | expire thread =>
      rw [step] at h
      split at h
      · rename_i hguard
        obtain rfl := Option.some.inj h
        exact timed_expire hs hguard.1
      · cases h
  | exit thread =>
      rw [step] at h
      split at h
      · obtain rfl := Option.some.inj h
        exact timed_exit hs thread
      · cases h

theorem timed_run {s₀ s : Control} {es : List Event} (hthreads : s₀.threads = [])
    (h : run (step py) s₀ es = some s) : Timed s :=
  run_invariant (timed_step py) (timed_initial hthreads) h

/-- The commands handled after a timer's own. -/
def later (s : Control) (t : Thread) : List Entry := s.journal.drop t.since

/-- Value the last `disable` or `enable` gave to `python_blacklist`. -/
def lastSwitch (entries : List Entry) : Option Bool :=
  (entries.filterMap fun entry => switchOf entry.tokens).getLast?

/-- Whether the last applied bypass command about `ip` left it bypassed. -/
def lastBypass (ip : Str) (entries : List Entry) : Option Bool :=
  (entries.filterMap (bypassOf ip)).getLast?

theorem lastEffect_reenable (entries : List Entry) :
    lastEffect .reenable entries = (lastSwitch entries).map (!·) := by
  rw [lastEffect, lastSwitch, ← List.getLast?_map, List.map_filterMap]
  rfl

/-- A timer never undoes an `enable` or a `removebypass`: it changes something exactly
when the last later command about the same thing, if any, is a `disable` or an
`addbypass`; and it changes nothing else. -/
theorem expire_undoes_own_kind {s₀ s s' : Control} {es : List Event} {t : Thread}
    (hthreads : s₀.threads = []) (hrun : run (step py) s₀ es = some s)
    (hexpire : step py s (.expire t) = some s') :
    (∃ entry, s.journal[t.since - 1]? = some entry ∧ StartedBy entry t.action) ∧
      match t.action with
      | .reenable =>
          s'.pythonBlacklist = true ∧ s'.gpListDB = s.gpListDB ∧
            (s'.pythonBlacklist ≠ s.pythonBlacklist ↔ lastSwitch (later s t) ≠ some true)
      | .unbypass ip =>
          s'.pythonBlacklist = s.pythonBlacklist ∧ s'.gpListDB.get ip = none ∧
            (∀ other, other ≠ ip → s'.gpListDB.get other = s.gpListDB.get other) ∧
            (s'.gpListDB.get ip ≠ s.gpListDB.get ip ↔
              lastBypass ip (later s t) ≠ some false) := by
  have hs := timed_run py hthreads hrun
  rw [step] at hexpire
  split at hexpire
  · rename_i hguard
    obtain ⟨hmem, hsleeps⟩ := hguard
    refine ⟨hs.started t hmem, ?_⟩
    have hpending := hs.pending t hmem hsleeps
    cases haction : t.action with
    | reenable =>
        rw [haction] at hexpire hpending
        obtain rfl := Option.some.inj hexpire
        refine ⟨rfl, rfl, ?_⟩
        rw [lastEffect_reenable] at hpending
        change true ≠ s.pythonBlacklist ↔ lastSwitch (s.journal.drop t.since) ≠ some true
        rw [Action.pending] at hpending
        rcases hlast : lastSwitch (s.journal.drop t.since) with _ | (_ | _) <;>
          rw [hlast] at hpending <;> cases hblacklist : s.pythonBlacklist <;>
          simp [hblacklist] at hpending ⊢
    | unbypass ip =>
        rw [haction] at hexpire hpending
        obtain rfl := Option.some.inj hexpire
        have hget : ∀ other, (fire (.unbypass ip) s).gpListDB.get other =
            if other = ip then none else s.gpListDB.get other := by
          intro other
          simp only [fire]
          split
          · simp [Dict.get_pop, eq_comm]
          · rename_i habsent
            split
            · rename_i heq
              subst heq
              simpa using habsent
            · rfl
        refine ⟨?_, ?_, fun other hne => ?_, ?_⟩
        · simp only [fire]
          split <;> rfl
        · simpa using hget ip
        · simpa [hne] using hget other
        · change (fire (.unbypass ip) s).gpListDB.get ip ≠ s.gpListDB.get ip ↔
            lastEffect (.unbypass ip) (s.journal.drop t.since) ≠ some false
          rw [hget ip, if_pos rfl]
          rw [Action.pending] at hpending
          rcases hlast : lastEffect (.unbypass ip) (s.journal.drop t.since) with _ | (_ | _) <;>
            rw [hlast] at hpending <;> cases hbypass : s.gpListDB.get ip <;>
            simp [hbypass] at hpending ⊢
  · cases hexpire

def command (words : List String) : Event :=
  .command ("python_control".toList :: words.map String.toList) true

def sleepThread : Thread := ⟨sleepName, .reenable, 1, false⟩

/-- A timed `disable`, later switches of both kinds and a bypass. -/
def switches : List Event :=
  [command ["disable", "10"], command ["enable"], command ["addbypass", "10.0.0.1"],
    command ["disable"]]

theorem expire_undoes_own_kind_switches :
    ∃ s s', run (step asciiPlatform) idle switches = some s ∧
      step asciiPlatform s (.expire sleepThread) = some s' ∧ (later s sleepThread).length = 3 ∧
      s'.pythonBlacklist = true ∧ s'.gpListDB = s.gpListDB ∧
      (s'.pythonBlacklist ≠ s.pythonBlacklist ↔ lastSwitch (later s sleepThread) ≠ some true) :=
  ⟨_, _, rfl, rfl, by decide, (expire_undoes_own_kind asciiPlatform
    (show idle.threads = [] from rfl)
    (show run (step asciiPlatform) idle switches = some _ from rfl)
    (show step asciiPlatform _ (.expire sleepThread) = some _ from rfl)).2⟩

/-- No `enable` or `disable` is applied between a timed `disable` and the change its
timer makes. -/
def SwitchStands : Prop :=
  ∀ s₀ es s t s', s₀.threads = [] → s₀.journal = [] → run (step py) s₀ es = some s →
    step py s (.expire t) = some s' → t.action = .reenable →
    s'.pythonBlacklist ≠ s.pythonBlacklist →
    ∀ entry ∈ later s t, entry.applied = true → switchOf entry.tokens = none

/-- No bypass command about `ip` is applied between a timed `addbypass` and the change
its timer makes. -/
def BypassStands : Prop :=
  ∀ s₀ es s t s' ip, s₀.threads = [] → s₀.journal = [] → run (step py) s₀ es = some s →
    step py s (.expire t) = some s' → t.action = .unbypass ip →
    s'.gpListDB.get ip ≠ s.gpListDB.get ip → ∀ entry ∈ later s t, bypassOf ip entry = none

/-- An address that a timer takes off the list was not on it before the timed command. -/
def EarlierBypassStands : Prop :=
  ∀ s₀ es s t s' ip es₁ tokens starts es₂ s₁, s₀.threads = [] → s₀.journal = [] →
    run (step py) s₀ es = some s → step py s (.expire t) = some s' → t.action = .unbypass ip →
    s'.gpListDB.get ip ≠ s.gpListDB.get ip → es = es₁ ++ .command tokens starts :: es₂ →
    run (step py) s₀ es₁ = some s₁ → s₁.journal.length + 1 = t.since → s₁.gpListDB.get ip = none

/-- Three runs in which an expiry undoes a later `disable`, a later `addbypass` and a
bypass that stood before. -/
theorem timer_undoes_later_commands :
    ¬ SwitchStands asciiPlatform ∧ ¬ BypassStands asciiPlatform ∧
      ¬ EarlierBypassStands asciiPlatform := by
  have hip : ∀ n, (⟨bypassName "10.0.0.1".toList, .unbypass "10.0.0.1".toList, n, false⟩ :
      Thread).action = .unbypass "10.0.0.1".toList := fun _ => rfl
  refine ⟨fun h => ?_, fun h => ?_, fun h => ?_⟩
  · have hentry := h idle [command ["disable", "10"], command ["enable"], command ["disable"]] _
      sleepThread _ rfl rfl rfl rfl rfl (by decide)
      ⟨["python_control".toList, enableVerb], true⟩ (by decide) rfl
    exact absurd hentry (by decide)
  · have hentry := h idle [command ["addbypass", "10.0.0.1", "10"],
        command ["removebypass", "10.0.0.1"], command ["addbypass", "10.0.0.1"]] _ _ _
      "10.0.0.1".toList rfl rfl rfl rfl (hip 1) (by decide)
      ⟨["python_control".toList, addBypassVerb, "10.0.0.1".toList], true⟩ (by decide)
    exact absurd hentry (by decide)
  · have hbefore := h idle [command ["addbypass", "10.0.0.1"],
        command ["addbypass", "10.0.0.1", "10"]] _ _ _ "10.0.0.1".toList
      [command ["addbypass", "10.0.0.1"]] _ _ [] _ rfl rfl rfl rfl (hip 2) (by decide) rfl rfl rfl
    exact absurd hbefore (by decide)

end PfBlockerNG.ControlTimers
