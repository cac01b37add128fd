import PfBlockerNG.RegexCost
import PfBlockerNG.RegexTokens
import Mathlib.Data.List.TakeWhile

/-!
The compile text of an admitted pattern. The pattern and its compile text are read side by side
with the scan that records the leading dot runs; the two readings differ only in those runs.
-/

namespace PfBlockerNG.CompileText

open PfBlockerNG.Strings
open PfBlockerNG.Backtracking
open PfBlockerNG.RegexRules
open PfBlockerNG.RegexReading
open PfBlockerNG.RegexTokens
open PfBlockerNG.RegexCost

/-! ### Dot runs -/

/-- A leading `.*` or `.+`, greedy or lazy. -/
structure DotRun where
  plus : Bool
  lazy : Bool

namespace DotRun

def text (run : DotRun) : Str :=
  '.' :: (if run.plus then '+' else '*') :: if run.lazy then ['?'] else []

/-- What a dot run reads as where it is written. -/
def written (run : DotRun) : List HostRe :=
  [.rep Atom.anyButNewline (if run.plus then 1 else 0) none run.lazy]

/-- What its spelling in the compile text reads as. -/
def compiled (run : DotRun) : List HostRe :=
  .group (inTurn [.rep anything 0 none run.lazy]) ::
    if run.plus then [.atom Atom.anyButNewline] else []

theorem dotRun_text (run : DotRun) : dotRun run.text =
    "(?s:.*".toList ++ (if run.lazy then ['?'] else []) ++ [')'] ++
      if run.plus then "[^\\n]".toList else [] := by
  obtain ⟨plus, lazy⟩ := run
  cases plus <;> cases lazy <;> rfl

theorem head?_dotRun (run : DotRun) : (dotRun run.text).head? = some '(' := by
  rw [dotRun_text]
  rfl

end DotRun

/-- Leading dot runs of a pattern from `i` on, in order. -/
def RunsFrom (p : Str) : Nat → List (Nat × Nat) → Prop
  | _, [] => True
  | i, (start, stop) :: runs =>
      i ≤ start ∧ stop ≤ p.length ∧
        (∃ run : DotRun, stop = start + run.text.length ∧
          (p.take stop).drop start = run.text) ∧ RunsFrom p stop runs

theorem RunsFrom.mono {p : Str} {i j : Nat} {runs : List (Nat × Nat)} (h : RunsFrom p j runs)
    (hij : i ≤ j) : RunsFrom p i runs := by
  cases runs with
  | nil => trivial
  | cons run runs => exact ⟨hij.trans h.1, h.2⟩

/-- What stands before the first run is copied. -/
theorem compileParts_split {p : Str} {runs : List (Nat × Nat)} {i j : Nat}
    (h : RunsFrom p j runs) (hij : i ≤ j) :
    compileParts p runs i = (p.take j).drop i ++ compileParts p runs j := by
  have hpart : ∀ {s : Str}, s.drop i = (s.take j).drop i ++ s.drop j := by
    intro s
    have hdrop : s.drop j = (s.drop i).drop (j - i) := by
      rw [List.drop_drop, Nat.add_sub_cancel' hij]
    rw [List.drop_take, hdrop, List.take_append_drop]
  cases runs with
  | nil => exact hpart
  | cons run runs =>
      obtain ⟨start, stop⟩ := run
      have hstart : (p.take start).take j = p.take j := by
        rw [List.take_take, Nat.min_eq_left h.1]
      show (p.take start).drop i ++ _ ++ _ = _ ++ ((p.take start).drop j ++ _ ++ _)
      rw [hpart (s := p.take start), hstart]
      simp only [List.append_assoc]

/-- What may follow the compile parts of a pattern in a text. -/
def Closing (tail : Str) : Prop := ∀ c ∈ tail.head?, c ∉ quantifierStart

theorem dotRun_first {p : Str} {start stop : Nat} {run : DotRun}
    (h : (p.take stop).drop start = run.text) : p[start]? = some '.' := by
  have hdot : ((p.take stop).drop start)[0]? = some '.' := by
    rw [h]
    rfl
  rw [List.getElem?_drop, Nat.add_zero] at hdot
  rw [List.getElem?_take] at hdot
  split at hdot
  · exact hdot
  · cases hdot

/-- The copy of a pattern goes on with a quantifier where the pattern does. -/
theorem next_compileParts {p tail : Str} {runs : List (Nat × Nat)} {i : Nat}
    (hruns : RunsFrom p i runs) (hi : i ≤ p.length) (htail : Closing tail) {c : Char}
    (hc : c ∈ quantifierStart) :
    (compileParts p runs i ++ tail).head? = some c ↔ p[i]? = some c := by
  cases runs with
  | nil =>
      show (p.drop i ++ tail).head? = some c ↔ _
      rw [List.head?_append, List.head?_drop]
      cases hchar : p[i]? with
      | some d => rfl
      | none =>
          rw [Option.none_or]
          exact iff_of_false (fun h => htail c h hc) (by simp)
  | cons run runs =>
      obtain ⟨start, stop⟩ := run
      obtain ⟨hstart, hstop, ⟨dots, hlength, htext⟩, -⟩ := hruns
      show ((p.take start).drop i ++ dotRun ((p.take stop).drop start) ++ _ ++ tail).head? =
        some c ↔ _
      rw [htext]
      rcases Nat.lt_or_eq_of_le hstart with hlt | rfl
      · have hcopied : ((p.take start).drop i).head? = p[i]? := by
          rw [List.head?_drop, List.getElem?_take, if_pos hlt]
        have hsome : ∃ d, p[i]? = some d := ⟨_, List.getElem?_eq_getElem (by omega)⟩
        obtain ⟨d, hd⟩ := hsome
        rw [List.append_assoc, List.append_assoc, List.head?_append, hcopied, hd]
        rfl
      · have hempty : (p.take i).drop i = [] := by
          rw [List.drop_take, Nat.sub_self, List.take_zero]
        rw [hempty, List.nil_append, List.append_assoc, List.head?_append, dots.head?_dotRun,
          dotRun_first htext]
        refine iff_of_false ?_ ?_
        · rintro ⟨⟩
          exact absurd hc (by decide)
        · rintro ⟨⟩
          exact absurd hc (by decide)

section Place

variable {p t tail : Str} {runs : List (Nat × Nat)} {i j stop : Nat}

/-- A token before the next dot run stands in the compile text as it is written. -/
theorem alike_of_rest (hrest : t.drop j = compileParts p runs i ++ tail)
    (hruns : RunsFrom p stop runs) (hi : i ≤ stop) (hstop : stop ≤ p.length)
    (htail : Closing tail) :
    Alike p i stop t j ∧ t.drop (j + (stop - i)) = compileParts p runs stop ++ tail := by
  rw [compileParts_split hruns hi, List.append_assoc] at hrest
  have hlength : ((p.take stop).drop i).length = stop - i := by
    rw [List.length_drop, List.length_take, Nat.min_eq_left hstop]
  have hdrop : t.drop (j + (stop - i)) = compileParts p runs stop ++ tail := by
    rw [← List.drop_drop, hrest, List.drop_append_of_le_length hlength.ge, ← hlength,
      List.drop_length, List.nil_append]
  refine ⟨⟨fun k hk => ?_, fun c hc => ?_⟩, hdrop⟩
  · rw [← List.getElem?_drop, hrest, List.getElem?_append_left (by omega), List.getElem?_drop,
      List.getElem?_take, if_pos hk]
  · rw [← List.head?_drop, hdrop]
    exact next_compileParts hruns hstop htail hc

end Place

/-! ### Scan and readings in step -/

/-- The elements of an anchored branch, as written and as compiled. -/
inductive Anchored : List HostRe → List HostRe → Prop
  | caret (rest : List HostRe) : Anchored (.zero .caret :: rest) (.zero .caret :: rest)
  | run (dots : DotRun) (rest : List HostRe) :
      Anchored (dots.written ++ rest) (dots.compiled ++ rest)

theorem Anchored.append {items items' : List HostRe} (h : Anchored items items') (item : HostRe) :
    Anchored (items ++ [item]) (items' ++ [item]) := by
  cases h with
  | caret rest => exact .caret (rest ++ [item])
  | run dots rest =>
      rw [List.append_assoc, List.append_assoc]
      exact .run dots (rest ++ [item])

theorem Anchored.ne_nil {items items' : List HostRe} (h : Anchored items items') : items ≠ [] := by
  cases h with
  | caret rest => exact List.cons_ne_nil _ _
  | run dots rest => exact List.cons_ne_nil _ _

/-- A level read from the text a frame was scanned from. -/
structure Follows (frame : Frame) (level : Level) : Prop where
  dotAll : level.dotAll = false
  items : frame.items = [] ↔ level.items = []
  plain : frame.simple = true → level.plain = true
  run : frame.atoms ≠ 0 → level.run ≠ []

/-- A group that may carry its quantifier is read with it. -/
theorem Follows.group? {frame : Frame} {level : Level} (h : Follows frame level)
    {q : Option Quantifier} (hmay : mayRepeat frame.endBranch q = true) :
    ∃ item, level.group? q = some item := by
  cases q with
  | none => exact ⟨_, rfl⟩
  | some q =>
      cases hoptional : q.isOptional with
      | true => exact ⟨_, if_pos hoptional⟩
      | false =>
          have hbody : (frame.simple && frame.atoms != 0) = true := by
            have hcases : (q.isOptional || (frame.simple && frame.atoms != 0)) = true := hmay
            rwa [hoptional, Bool.false_or] at hcases
          obtain ⟨hsimple, hatoms⟩ := Bool.and_eq_true_iff.mp hbody
          have hrun := h.run (by simpa using hatoms)
          refine ⟨.run level.run q.low q.high q.lazy, ?_⟩
          rw [Level.group?, hoptional, if_neg Bool.false_ne_true, if_pos]
          rw [h.plain hsimple, Bool.true_and, Bool.not_eq_true', List.isEmpty_eq_false_iff]
          exact hrun

/-- The outermost frame, and its level in the pattern and in the compile text. -/
structure Pair (frame : Frame) (level level' : Level) : Prop where
  dotAll : level'.dotAll = false
  same : frame.branchAnchored = false → level.items = level'.items
  anchored : frame.branchAnchored = true → Anchored level.items level'.items
  finished : frame.unanchored = 0 → List.Forall₂ (fun r r' => ∃ items items',
    Anchored items items' ∧ r = branchOf items ∧ r' = branchOf items')
    level.finished level'.finished

/-- The stack of the scan with those of the two readings; `base` lies under the compile text. -/
inductive Stacks (base : Level) :
    Frame → List Frame → Level → List Level → Level → List Level → Prop
  | top {frame : Frame} {level level' : Level} : frame.top = true → Follows frame level →
      Pair frame level level' → Stacks base frame [] level [] level' [base]
  | nest {frame : Frame} {level : Level} {frame₁ : Frame} {frames : List Frame}
      {level₁ level₁' : Level} {levels levels' : List Level} : frame.top = false →
      Follows frame level → frame₁.simple = false →
      Stacks base frame₁ frames level₁ levels level₁' levels' →
      Stacks base frame (frame₁ :: frames) level (level₁ :: levels) level (level₁' :: levels')

/-- The recorded dot runs. -/
def runsOf : Frame → List Frame → List (Nat × Nat)
  | frame, [] => frame.dotRuns
  | _, frame :: frames => runsOf frame frames

/-- Only the outermost frame is the pattern's own. -/
def Rooted : Frame → List Frame → Prop
  | frame, [] => frame.top = true
  | frame, outer :: frames => frame.top = false ∧ Rooted outer frames

theorem Rooted.change {frame frame' : Frame} {frames : List Frame} (h : Rooted frame frames)
    (htop : frame'.top = frame.top) : Rooted frame' frames := by
  cases frames with
  | nil => exact htop.trans h
  | cons outer frames => exact ⟨htop.trans h.1, h.2⟩

section Steps

variable {base level level' : Level} {frame frame' : Frame} {frames : List Frame}
  {levels levels' : List Level}

theorem Stacks.follows (h : Stacks base frame frames level levels level' levels') :
    Follows frame level := by
  cases h <;> assumption

theorem Stacks.dotAll' (h : Stacks base frame frames level levels level' levels') :
    level'.dotAll = false := by
  cases h with
  | top _ _ hpair => exact hpair.dotAll
  | nest _ hfollows _ _ => exact hfollows.dotAll

/-- One change of the open level, the same in both readings. -/
theorem Stacks.change (h : Stacks base frame frames level levels level' levels')
    (g : Level → Level) (htop : frame'.top = frame.top) (hfollows : Follows frame' (g level))
    (hpair : Pair frame level level' → Pair frame' (g level) (g level')) :
    Stacks base frame' frames (g level) levels (g level') levels' := by
  cases h with
  | top hframe _ hold => exact .top (htop.trans hframe) hfollows (hpair hold)
  | nest hframe _ hsimple houter => exact .nest (htop.trans hframe) hfollows hsimple houter

/-- One more element in the open branch. -/
theorem Pair.append {item : HostRe} (h : Pair frame level level') {next next' : Level}
    (hitems : next.items = level.items ++ [item]) (hitems' : next'.items = level'.items ++ [item])
    (hfinished : next.finished = level.finished) (hfinished' : next'.finished = level'.finished)
    (hdotAll : next'.dotAll = level'.dotAll) (hunanchored : frame'.unanchored = frame.unanchored)
    (hanchored : frame'.branchAnchored = frame.branchAnchored ∨
      frame'.branchAnchored = true ∧ level.items = [] ∧ item = .zero .caret) :
    Pair frame' next next' where
  dotAll := hdotAll.trans h.dotAll
  same := by
    intro hfree
    rcases hanchored with hkeep | ⟨htrue, -, -⟩
    · rw [hitems, hitems', h.same (hkeep.symm.trans hfree)]
    · exact absurd (htrue.symm.trans hfree) (by decide)
  anchored := by
    intro htrue
    rw [hitems, hitems']
    cases hold : frame.branchAnchored with
    | true => exact (h.anchored hold).append item
    | false =>
        rcases hanchored with hkeep | ⟨-, hempty, rfl⟩
        · exact absurd (hold.symm.trans (hkeep.symm.trans htrue)) (by decide)
        · rw [← h.same hold, hempty]
          exact .caret []
  finished := by
    intro hzero
    rw [hfinished, hfinished']
    exact h.finished (hunanchored.symm.trans hzero)

theorem Pair.endBranch (h : Pair frame level level') {next next' : Level}
    (hnext : next = { level.endBranch with plain := false })
    (hnext' : next' = { level'.endBranch with plain := false }) :
    Pair frame.endBranch next next' where
  dotAll := by
    rw [hnext']
    exact h.dotAll
  same _ := by rw [hnext, hnext']; rfl
  anchored htrue := by cases htrue
  finished := by
    intro hzero
    have hparts : frame.unanchored + (if frame.branchAnchored = true then 0 else 1) = 0 := hzero
    have hbranch : frame.branchAnchored = true := by
      by_contra hfalse
      rw [if_neg hfalse] at hparts
      omega
    rw [hnext, hnext']
    exact List.rel_append (h.finished (by omega))
      (.cons ⟨_, _, h.anchored hbranch, rfl, rfl⟩ .nil)

end Steps

/-- The two readings stand where the scan stands. -/
structure Aligned (p t tail : Str) (base : Level) (runs : List (Nat × Nat)) (s : Scan)
    (r r' : Reader) : Prop where
  index : r.index = s.index
  rest : t.drop r'.index = compileParts p runs s.index ++ tail
  stack : Stacks base s.frame s.outer r.level r.outer r'.level r'.outer

/-- A turn of the scan that both readings follow; it records the runs `new`. -/
structure Followed (p : Str) (s s' : Scan) (new : List (Nat × Nat)) : Prop where
  rooted : Rooted s'.frame s'.outer
  runs : runsOf s'.frame s'.outer = runsOf s.frame s.outer ++ new
  ordered : ∀ later, RunsFrom p s'.index later → RunsFrom p s.index (new ++ later)
  reads : ∀ (t tail : Str) (base : Level) (later : List (Nat × Nat)) (r r' : Reader),
    Closing tail → RunsFrom p s'.index later → Aligned p t tail base (new ++ later) s r r' →
      ∃ r₁ r₁', readFrom p r = readFrom p r₁ ∧ readFrom t r' = readFrom t r₁' ∧
        Aligned p t tail base later s' r₁ r₁'

section Turns

variable {p : Str} {s s' : Scan}

/-- A token that reads the same in both texts. -/
theorem followed_of_token (hrooted : Rooted s'.frame s'.outer)
    (hruns : runsOf s'.frame s'.outer = runsOf s.frame s.outer) (hlt : s.index ≤ s'.index)
    (hle : s'.index ≤ p.length) (g : Reader → Reader)
    (hg : ∀ r, (g r).index = r.index + (s'.index - s.index))
    (hstacks : ∀ {base : Level} {r r' : Reader},
      Stacks base s.frame s.outer r.level r.outer r'.level r'.outer →
        (∀ t, Alike p s.index s'.index t r.index → readFrom t r = readFrom t (g r)) ∧
        (∀ t, Alike p s.index s'.index t r'.index → readFrom t r' = readFrom t (g r')) ∧
        Stacks base s'.frame s'.outer (g r).level (g r).outer (g r').level (g r').outer) :
    Followed p s s' [] := by
  refine ⟨hrooted, hruns.trans (List.append_nil _).symm, fun later hlater => hlater.mono hlt, ?_⟩
  intro t tail base runs r r' htail hfrom hs
  obtain ⟨hread, hread', hnext⟩ := hstacks hs.stack
  obtain ⟨halike, hrest⟩ := alike_of_rest hs.rest hfrom hlt hle htail
  have hrest' : t.drop (g r').index = compileParts p runs s'.index ++ tail := by
    rw [hg]
    exact hrest
  refine ⟨g r, g r', hread p ?_, hread' t halike, ?_, hrest', hnext⟩
  · rw [hs.index]
    exact Alike.of_eq p hlt
  · rw [hg, hs.index, Nat.add_sub_cancel' hlt]

theorem openGroup_followed (hroot : Rooted s.frame s.outer) (h : openGroup p s = .ok s')
    (hchar : p[s.index]? = some '(') :
    Followed p s s' [] := by
  have hopens : Opens p s.index s'.index ∧
      s' = { s with
        index := s'.index
        frame := { top := false }
        outer := { s.frame with simple := false } :: s.outer } := by
    simp only [openGroup] at h
    split at h
    · cases h
    next hgroup =>
    split at h
    · cases h
    cases h
    refine ⟨?_, rfl⟩
    cases hextended : startsWith "(?".toList (p.drop s.index) with
    | true =>
        refine Or.inl ⟨?_, rfl⟩
        simpa only [hextended, Bool.true_and, Bool.not_eq_true', Bool.not_eq_false] using hgroup
    | false => exact Or.inr ⟨hextended, hchar, rfl⟩
  obtain ⟨hopens, hs'⟩ := hopens
  have hbounds : s.index ≤ s'.index ∧ s'.index ≤ p.length := by
    rcases hopens with ⟨hgroup, hindex⟩ | ⟨-, -, hindex⟩
    · obtain ⟨rest, hrest⟩ := List.isPrefixOf_iff_prefix.mp hgroup
      have hlength := congrArg List.length hrest
      rw [List.length_append, List.length_drop] at hlength
      have hthree : ("(?:".toList).length = 3 := rfl
      omega
    · have hin := lt_of_getElem? hchar
      omega
  refine followed_of_token (by rw [hs']; exact ⟨rfl, hroot.change rfl⟩)
    (by rw [hs']; cases s.outer <;> rfl) hbounds.1 hbounds.2
    (fun r => ⟨r.index + (s'.index - s.index), { dotAll := r.level.dotAll }, r.level :: r.outer⟩)
    (fun r => rfl) fun {base r r'} hstacks => ?_
  refine ⟨fun t halike => readFrom_opening hopens halike,
    fun t halike => readFrom_opening hopens halike, ?_⟩
  rw [hs']
  have hfollows := hstacks.follows
  show Stacks base { top := false } _ { dotAll := r.level.dotAll } _ { dotAll := r'.level.dotAll } _
  rw [hfollows.dotAll, hstacks.dotAll']
  refine .nest rfl ⟨rfl, iff_of_true rfl rfl, fun _ => rfl, fun hne => absurd rfl hne⟩ rfl ?_
  exact hstacks.change id rfl
    ⟨hfollows.dotAll, hfollows.items, fun hsimple => absurd hsimple Bool.false_ne_true,
      hfollows.run⟩
    fun hpair => ⟨hpair.dotAll, hpair.same, hpair.anchored, hpair.finished⟩

theorem bar_followed (hroot : Rooted s.frame s.outer) (hchar : p[s.index]? = some '|') :
    Followed p s (bar s) [] := by
  have hin := lt_of_getElem? hchar
  refine followed_of_token (hroot.change rfl)
    (by cases h : s.outer <;> simp [bar, runsOf, h, Frame.endBranch])
    (Nat.le_succ _) hin
    (fun r => { r with
      index := r.index + 1, level := { r.level.endBranch with plain := false } })
    (fun r => ?_) fun {base r r'} hstacks => ?_
  · show _ = r.index + (s.index + 1 - s.index)
    rw [Nat.add_sub_cancel_left]
  · have hread : ∀ (r : Reader) t, Alike p s.index (bar s).index t r.index →
        readFrom t r = readFrom t { r with
          index := r.index + 1, level := { r.level.endBranch with plain := false } } :=
      fun r t halike => readFrom_bar
        (drop_of_getElem? ((halike.copied.first (Nat.lt_succ_self _)).trans hchar))
    have hfollows := hstacks.follows
    refine ⟨hread r, hread r', ?_⟩
    exact hstacks.change (fun level => { level.endBranch with plain := false }) rfl
      ⟨hfollows.dotAll, iff_of_true rfl rfl, fun hsimple => absurd hsimple Bool.false_ne_true,
      hfollows.run⟩
      fun hpair => (Pair.mk hpair.dotAll hpair.same hpair.anchored hpair.finished :
        Pair { s.frame with simple := false } _ _).endBranch rfl rfl

theorem appendZero_followed (hroot : Rooted s.frame s.outer) {z : Zero} {next : Nat}
    (hzero : zeroAt p s.index = some (z, next)) :
    Followed p s (appendZero s z next) [] := by
  obtain ⟨hlt, hle⟩ := zeroAt_le hzero
  refine followed_of_token (hroot.change rfl)
    (by cases h : s.outer <;> simp only [appendZero, runsOf, h]) hlt.le hle
    (fun r => { r with
      index := r.index + (next - s.index), level := r.level.push (.zero z) })
    (fun r => rfl) fun {base r r'} hstacks => ?_
  have hfollows := hstacks.follows
  refine ⟨fun t halike => readFrom_zeroToken hzero halike.copied,
    fun t halike => readFrom_zeroToken hzero halike.copied, ?_⟩
  refine hstacks.change (fun level => level.push (.zero z)) rfl
    ⟨hfollows.dotAll, iff_of_false (by simp [appendZero]) (by simp [Level.push]),
      fun hsimple => absurd hsimple Bool.false_ne_true, hfollows.run⟩
    fun hpair => hpair.append rfl rfl rfl rfl rfl rfl ?_
  show (s.frame.branchAnchored || (z == .caret && s.frame.items.isEmpty)) = _ ∨ _
  cases hfirst : z == .caret && s.frame.items.isEmpty with
  | false => exact Or.inl (Bool.or_false _)
  | true =>
      rw [Bool.and_eq_true, beq_iff_eq, List.isEmpty_iff] at hfirst
      obtain ⟨rfl, hitems⟩ := hfirst
      have htrue : (s.frame.branchAnchored || (Zero.caret == .caret && s.frame.items.isEmpty)) =
          true := by
        rw [hitems]
        exact Bool.or_true _
      exact Or.inr ⟨htrue, hfollows.items.mp hitems, rfl⟩

theorem pushAtom_followed (hroot : Rooted s.frame s.outer) {c : Char} {a : Atom}
    {index listed next width : Nat} {q : Option Quantifier} (hchar : p[s.index]? = some c)
    (hplain : c ∉ ['(', ')', '|'])
    (hstart : c ∉ quantifierStart) (hzero : zeroAt p s.index = none)
    (hread : readAtom p c s.index = .ok (index, a, listed))
    (hq : quantifier p index = .ok (next, q)) :
    Followed p s { s with index := next, width := width, frame := s.frame.pushAtom a q } [] := by
  have hindex := readAtom_index hread
  have hnext := quantifier_index hq
  have hle := quantifier_le hq (readAtom_le hread (lt_of_getElem? hchar))
  refine followed_of_token (hroot.change rfl) (by cases s.outer <;> rfl)
    (hindex.le.trans hnext) hle
    (fun r => { r with
      index := r.index + (next - s.index), level := r.level.pushAtom a q })
    (fun r => rfl) fun {base r r'} hstacks => ?_
  have hfollows := hstacks.follows
  refine ⟨fun t halike => readFrom_atom hchar hplain hstart hzero hread hq halike hfollows.dotAll,
    fun t halike => readFrom_atom hchar hplain hstart hzero hread hq halike hstacks.dotAll', ?_⟩
  refine hstacks.change (fun level => level.pushAtom a q) rfl
    ⟨hfollows.dotAll, iff_of_false (by simp [Frame.pushAtom]) (by simp [Level.pushAtom]),
      fun hsimple => ?_, fun _ => by simp [Level.pushAtom]⟩
    fun hpair => hpair.append rfl rfl rfl rfl rfl rfl (Or.inl rfl)
  obtain ⟨hframe, hquantifier⟩ := Bool.and_eq_true_iff.mp hsimple
  exact Bool.and_eq_true_iff.mpr ⟨hfollows.plain hframe, hquantifier⟩

theorem closeGroup_followed (hroot : Rooted s.frame s.outer) (h : closeGroup p s = .ok s')
    (hchar : p[s.index]? = some ')') :
    Followed p s s' [] := by
  obtain ⟨index, width, frame, outer⟩ := s
  unfold closeGroup at h
  dsimp only at h hchar hroot
  cases outer with
  | nil => cases h
  | cons enclosing outer =>
      simp only [bind, Except.bind] at h
      split at h
      · cases h
      next out hq =>
      obtain ⟨next, q⟩ := out
      dsimp only at h hq
      split at h
      case isFalse => cases h
      next hmay =>
      cases h
      have hnext := quantifier_index hq
      have hle := quantifier_le hq (lt_of_getElem? hchar)
      refine followed_of_token (hroot.2.change rfl) (by cases outer <;> rfl)
        (show index ≤ next by omega) hle
        (fun r => ⟨r.index + (next - index),
          (r.outer.headD r.level).push ((r.level.group? q).getD .empty), r.outer.tail⟩)
        (fun r => rfl) fun {base r r'} hstacks => ?_
      obtain ⟨i, level, levels⟩ := r
      obtain ⟨i', level', levels'⟩ := r'
      cases hstacks with
      | @nest _ _ _ _ level₁ level₁' levels levels' hframe hfollows hsimple houter =>
          obtain ⟨item, hitem⟩ := hfollows.group? hmay
          have houterFollows := houter.follows
          refine ⟨fun t halike => ?_, fun t halike => ?_, ?_⟩
          · rw [hitem]
            exact readFrom_closing hchar hq halike rfl hitem
          · rw [hitem]
            exact readFrom_closing hchar hq halike rfl hitem
          · refine houter.change (fun outer => outer.push _) rfl
              ⟨houterFollows.dotAll, iff_of_false (by simp [Frame.push]) (by simp [Level.push]),
                fun htrue => absurd (htrue.symm.trans hsimple) (by decide), houterFollows.run⟩
              fun hpair => hpair.append rfl rfl rfl rfl rfl rfl (Or.inl rfl)

/-! ### A leading dot run -/

/-- The atom and the quantifier of a leading dot run. -/
theorem dotRun_of_quantifier {i next : Nat} {q : Option Quantifier} (hdot : p[i]? = some '.')
    (hmark : p[i + 1]? = some '*' ∨ p[i + 1]? = some '+')
    (hq : quantifier p (i + 1) = .ok (next, q)) :
    ∃ (run : DotRun) (q' : Quantifier), q = some q' ∧ q'.low = (if run.plus then 1 else 0) ∧
      q'.high = none ∧ q'.lazy = run.lazy ∧ next = i + run.text.length ∧
      (p.take next).drop i = run.text := by
  have hbounds : ∃ plus : Bool, p[i + 1]? = some (if plus then '+' else '*') ∧
      repeatBounds p (i + 1) = .ok (some (if plus then 1 else 0, none, i + 2)) := by
    rcases hmark with hstar | hplus
    · refine ⟨false, hstar, ?_⟩
      rw [repeatBounds, hstar]
      rfl
    · refine ⟨true, hplus, ?_⟩
      rw [repeatBounds, hplus]
      rfl
  obtain ⟨plus, hsign, hbounds⟩ := hbounds
  have hin : inBounds (if plus then 1 else 0) none = true := by cases plus <;> decide
  obtain ⟨q', hread, hlow, hhigh, hlazy⟩ := quantifier_of_bounds hbounds hin
  obtain ⟨hnext, rfl⟩ := Prod.mk.inj (Except.ok.inj (hread.symm.trans hq))
  have hdrop : p.drop i = '.' :: (if plus then '+' else '*') :: p.drop (i + 2) := by
    rw [drop_of_getElem? hdot, drop_of_getElem? hsign]
  refine ⟨⟨plus, p[i + 2]? == some '?'⟩, q', rfl, hlow, hhigh, hlazy, ?_⟩
  rw [List.drop_take, hdrop]
  cases hquestion : p[i + 2]? == some '?' with
  | true =>
      rw [hquestion, if_pos rfl] at hnext
      have hthird := drop_of_getElem? (beq_iff_eq.mp hquestion)
      rw [← hnext, show i + 2 + 1 - i = 3 by omega, hthird]
      exact ⟨rfl, rfl⟩
  | false =>
      rw [hquestion, if_neg Bool.false_ne_true] at hnext
      rw [← hnext, show i + 2 - i = 2 by omega]
      exact ⟨rfl, rfl⟩

/-- The spelling of `.*` that crosses a newline. -/
theorem readFrom_crossing {t rest : Str} {r : Reader} (lazy : Bool)
    (h : t.drop r.index =
      '(' :: '?' :: 's' :: ':' :: '.' :: '*' :: ((if lazy then ['?'] else []) ++ ')' :: rest))
    (hrest : ∀ c ∈ rest.head?, c ∉ quantifierStart) :
    ∃ next, t.drop next = rest ∧ readFrom t r = readFrom t { r with
      index := next, level := r.level.push (.group (inTurn [.rep anything 0 none lazy])) } := by
  have hopen := readFrom_open h rfl
  have hdot : t.drop (r.index + 4) =
      '.' :: '*' :: ((if lazy then ['?'] else []) ++ ')' :: rest) :=
    drop_succ_of_drop (drop_succ_of_drop (drop_succ_of_drop (drop_succ_of_drop h)))
  have hstar := drop_succ_of_drop hdot
  have hunit : unit? t '.' (r.index + 4) true = some (r.index + 4 + 1, anything) := by
    rw [unit?, hdot, startsWith_class (by decide)]
    rfl
  have hbounds : repeatBounds t (r.index + 4 + 1) = .ok (some (0, none, r.index + 4 + 2)) := by
    rw [repeatBounds, getElem?_of_drop hstar]
    rfl
  obtain ⟨q, hq, hlow, hhigh, hlazy⟩ := quantifier_of_bounds hbounds (by decide)
  have hmark : (t[r.index + 4 + 2]? == some '?') = lazy := by
    rw [← List.head?_drop, drop_succ_of_drop hstar]
    cases lazy <;> rfl
  rw [hmark] at hq hlazy
  have hread : readFrom t ⟨r.index + 4, { dotAll := true }, r.level :: r.outer⟩ = _ :=
    readFrom_unit hdot (by decide) (by decide) (by decide)
      (zeroAt_eq_none hdot (by decide) (by decide) fun e => absurd e (by decide)) (by decide) hunit
      (by rw [quantifier?, hq]; rfl)
  have hclosing : t.drop (if lazy then r.index + 4 + 2 + 1 else r.index + 4 + 2) = ')' :: rest := by
    have hmarked := drop_succ_of_drop hstar
    cases lazy with
    | true => exact drop_succ_of_drop hmarked
    | false => exact hmarked
  refine ⟨_, drop_succ_of_drop hclosing, hopen.trans (hread.trans ?_)⟩
  refine readFrom_close hclosing rfl (quantifier?_none (drop_succ_of_drop hclosing) hrest) ?_
  show some (Re.group (inTurn [.rep anything q.low q.high q.lazy])) = _
  rw [hlow, hhigh, hlazy]

/-- The spelling of a leading dot run in the compile text. -/
theorem readFrom_compiled {t rest : Str} {r : Reader} (run : DotRun)
    (h : t.drop r.index = dotRun run.text ++ rest)
    (hrest : ∀ c ∈ rest.head?, c ∉ quantifierStart) :
    ∃ r', readFrom t r = readFrom t r' ∧ t.drop r'.index = rest ∧ r'.outer = r.outer ∧
      r'.level.items = r.level.items ++ run.compiled ∧
      r'.level.finished = r.level.finished ∧ r'.level.dotAll = r.level.dotAll := by
  obtain ⟨plus, lazy⟩ := run
  rw [DotRun.dotRun_text] at h
  cases plus with
  | false =>
      have hstart : t.drop r.index = '(' :: '?' :: 's' :: ':' :: '.' :: '*' ::
          ((if lazy then ['?'] else []) ++ ')' :: rest) := by
        rw [h]
        cases lazy <;> rfl
      obtain ⟨next, hnext, hread⟩ := readFrom_crossing lazy hstart hrest
      exact ⟨_, hread, hnext, rfl, rfl, rfl, rfl⟩
  | true =>
      have hstart : t.drop r.index = '(' :: '?' :: 's' :: ':' :: '.' :: '*' ::
          ((if lazy then ['?'] else []) ++ ')' :: ("[^\\n]".toList ++ rest)) := by
        rw [h]
        cases lazy <;> rfl
      obtain ⟨next, hnext, hread⟩ := readFrom_crossing lazy hstart (by rintro c ⟨⟩; decide)
      have hclass : t.drop next = '[' :: '^' :: '\\' :: 'n' :: ']' :: rest := hnext
      have hafter : t.drop (next + 5) = rest := by
        rw [← List.drop_drop, hclass]
        rfl
      have hunit : ∀ all, unit? t '[' next all = some (next + 5, Atom.anyButNewline) := by
        intro all
        rw [unit?, hclass]
        rfl
      have hatom : readFrom t { r with
          index := next,
          level := r.level.push (.group (inTurn [.rep anything 0 none lazy])) } = _ :=
        readFrom_unit hclass (by decide) (by decide) (by decide)
          (zeroAt_eq_none hclass (by decide) (by decide) fun e => absurd e (by decide)) (by decide)
          (hunit _) (quantifier?_none hafter hrest)
      refine ⟨_, hread.trans hatom, hafter, rfl, ?_, rfl, rfl⟩
      exact List.append_assoc _ _ _

/-- A leading dot run is recorded where it stands and read in either spelling. -/
theorem dotRun_followed (hroot : Rooted s.frame s.outer) {next width : Nat}
    {q : Option Quantifier} (htop : s.frame.top = true) (hempty : s.frame.items = [])
    (hdot : p[s.index]? = some '.')
    (hmark : p[s.index + 1]? = some '*' ∨ p[s.index + 1]? = some '+')
    (hq : quantifier p (s.index + 1) = .ok (next, q))
    (hnext : ∀ c ∈ quantifierStart, p[next]? ≠ some c) :
    Followed p s { s with
      index := next
      width := width
      frame := (s.frame.anchorDotRun s.index next).pushAtom Atom.anyButNewline q }
      [(s.index, next)] := by
  obtain ⟨run, q', rfl, hlow, hhigh, hlazy, hlength, htext⟩ := dotRun_of_quantifier hdot hmark hq
  have hle := quantifier_le hq (lt_of_getElem? hdot)
  have houter : s.outer = [] := by
    cases h : s.outer with
    | nil => rfl
    | cons outer frames =>
        rw [h] at hroot
        exact absurd (htop.symm.trans hroot.1) (by decide)
  obtain ⟨index, width', frame, outer⟩ := s
  dsimp only at *
  subst houter
  refine ⟨hroot.change rfl, rfl,
    fun later hlater => ⟨le_refl _, hle, ⟨run, hlength, htext⟩, hlater⟩, ?_⟩
  intro t tail base later r r' htail hfrom hs
  obtain ⟨hindex, hrest, hstack⟩ := hs
  have hstart : t.drop r'.index = dotRun run.text ++ (compileParts p later next ++ tail) := by
    rw [hrest, ← htext]
    show (p.take index).drop index ++ _ ++ _ ++ tail = _
    rw [List.drop_take, Nat.sub_self, List.take_zero, List.nil_append, List.append_assoc]
    rfl
  have hplain : ∀ c ∈ (compileParts p later next ++ tail).head?, c ∉ quantifierStart :=
    fun c hc hmem => hnext c hmem ((next_compileParts hfrom hle htail hmem).mp hc)
  have hzero : zeroAt p index = none :=
    zeroAt_eq_none (drop_of_getElem? hdot) (by decide) (by decide) fun e => absurd e (by decide)
  have hlt : index ≤ next := by omega
  obtain ⟨i, level, outer⟩ := r
  obtain ⟨i', level', outer'⟩ := r'
  dsimp only at hindex hrest hstart hstack
  subst hindex
  cases hstack with
  | top _ hfollows hpair =>
      obtain ⟨r₁, hread, hrest₁, houter₁, hitems, hfinished, hdotAll⟩ :=
        readFrom_compiled (t := t) (r := ⟨i', level', [base]⟩) run hstart hplain
      have hpattern : readFrom p ⟨i, level, []⟩ = _ :=
        readFrom_atom hdot (by decide) (by decide) hzero rfl hq (Alike.of_eq p hlt)
          hfollows.dotAll
      refine ⟨_, r₁, hpattern, hread, Nat.add_sub_cancel' hlt, hrest₁, ?_⟩
      have hlevel := hfollows.items.mp hempty
      obtain ⟨i₁, level₁, outer₁⟩ := r₁
      dsimp only at houter₁ hitems hfinished hdotAll ⊢
      subst houter₁
      refine .top htop ⟨hfollows.dotAll, ?_, fun hsimple => ?_, fun _ => ?_⟩ ?_
      · exact iff_of_false (by simp [Frame.pushAtom]) (by simp [Level.pushAtom])
      · cases (Bool.and_eq_true_iff.mp hsimple).2
      · simp [Level.pushAtom]
      refine ⟨hdotAll.trans hpair.dotAll, fun hfalse => ?_, fun _ => ?_, fun hzero => ?_⟩
      · cases hfalse
      · have hfree : frame.branchAnchored = false := by
          by_contra hanchored
          rw [Bool.not_eq_false] at hanchored
          exact (hpair.anchored hanchored).ne_nil hlevel
        have hwritten : (level.pushAtom Atom.anyButNewline (some q')).items = run.written := by
          show level.items ++ [.rep Atom.anyButNewline q'.low q'.high q'.lazy] = _
          rw [hlevel, hlow, hhigh, hlazy]
          rfl
        have hanchored := Anchored.run run []
        rw [List.append_nil, List.append_nil, ← hwritten] at hanchored
        rw [hitems, ← hpair.same hfree, hlevel]
        exact hanchored
      · rw [hfinished]
        exact hpair.finished hzero

theorem appendAtom_followed (hroot : Rooted s.frame s.outer) {c : Char}
    (h : appendAtom p c s = .ok s') (hchar : p[s.index]? = some c) (hplain : c ∉ ['(', ')', '|'])
    (hstart : c ∉ quantifierStart) (hzero : zeroAt p s.index = none)
    (hnext : ∀ c ∈ quantifierStart, p[s'.index]? ≠ some c) : ∃ new, Followed p s s' new := by
  simp only [appendAtom, bind, Except.bind] at h
  split at h
  · cases h
  next out hread =>
  obtain ⟨index, a, listed⟩ := out
  dsimp only at h hread
  split at h
  · cases h
  next out' hq =>
  obtain ⟨next, q⟩ := out'
  cases hleading : isLeadingDotRun p c s.frame index with
  | false =>
      rw [hleading, if_neg Bool.false_ne_true] at h
      cases h
      exact ⟨[], pushAtom_followed hroot hchar hplain hstart hzero hread hq⟩
  | true =>
      rw [hleading, if_pos rfl] at h
      simp only [isLeadingDotRun, Bool.and_eq_true, beq_iff_eq, List.isEmpty_iff,
        Bool.or_eq_true] at hleading
      obtain ⟨⟨⟨rfl, htop⟩, hempty⟩, hmark⟩ := hleading
      have hdot : readAtom p '.' s.index = .ok (s.index + 1, Atom.anyButNewline, 0) := rfl
      rw [hdot] at hread
      cases hread
      cases h
      exact ⟨_, dotRun_followed hroot htop hempty hchar hmark hq hnext⟩

/-- Both readings follow every turn of the scan. -/
theorem step_followed (hroot : Rooted s.frame s.outer) {c : Char} (h : step p c s = .ok s')
    (hchar : p[s.index]? = some c) (hnext : ∀ c ∈ quantifierStart, p[s'.index]? ≠ some c) :
    ∃ new, Followed p s s' new := by
  unfold step at h
  split at h
  · next hopen => exact ⟨[], openGroup_followed hroot h (hopen ▸ hchar)⟩
  next hopen =>
  split at h
  · next hclose => exact ⟨[], closeGroup_followed hroot h (hclose ▸ hchar)⟩
  next hclose =>
  split at h
  · next hbar =>
      cases h
      exact ⟨[], bar_followed hroot (hbar ▸ hchar)⟩
  next hbar =>
  split at h
  · next z next hzero =>
      cases h
      exact ⟨[], appendZero_followed hroot hzero⟩
  next hzero =>
  split at h
  · cases h
  next hstart =>
  refine appendAtom_followed hroot h hchar ?_ hstart hzero hnext
  simp only [List.mem_cons, List.not_mem_nil, or_false, not_or]
  exact ⟨hopen, hclose, hbar⟩

/-- A scan that goes on does not stand before a quantifier. -/
theorem not_quantifier_of_scan {fuel : Nat} (h : scan p fuel s = .ok s')
    (hfuel : p.length ≤ s.index + fuel) : ∀ c ∈ quantifierStart, p[s.index]? ≠ some c := by
  intro c hc hchar
  cases fuel with
  | zero =>
      have hin := lt_of_getElem? hchar
      omega
  | succ fuel =>
      rw [scan, hchar] at h
      have hzero : zeroAt p s.index = none := by
        rcases mem_quantifierStart.mp hc with rfl | rfl | rfl | rfl
        all_goals
          exact zeroAt_eq_none (drop_of_getElem? hchar) (by decide) (by decide)
            fun e => absurd e (by decide)
      have hstep : step p c s = .error (refusalAt "misplaced quantifier".toList s.index) := by
        have hplain : c ≠ '(' ∧ c ≠ ')' ∧ c ≠ '|' := by
          rcases mem_quantifierStart.mp hc with rfl | rfl | rfl | rfl <;> decide
        rw [step, if_neg hplain.1, if_neg hplain.2.1, if_neg hplain.2.2, hzero]
        exact if_pos hc
      simp only [hstep, bind, Except.bind] at h
      cases h

/-- The whole scan, and both readings to the end of the pattern. -/
theorem scan_followed {fuel : Nat} (hroot : Rooted s.frame s.outer)
    (h : scan p fuel s = .ok s') (hfuel : p.length ≤ s.index + fuel) :
    ∃ new, Followed p s s' new := by
  induction fuel generalizing s with
  | zero =>
      cases h
      refine ⟨[], hroot, (List.append_nil _).symm, fun _ h => h, ?_⟩
      intro t tail base later r r' htail hfrom hs
      exact ⟨r, r', rfl, rfl, hs⟩
  | succ fuel ih =>
      rw [scan] at h
      split at h
      · cases h
        refine ⟨[], hroot, (List.append_nil _).symm, fun _ h => h, ?_⟩
        intro t tail base later r r' htail hfrom hs
        exact ⟨r, r', rfl, rfl, hs⟩
      next c hchar =>
      simp only [bind, Except.bind] at h
      split at h
      · cases h
      next s₁ hstep =>
      have hindex := step_index hstep
      have hfuel₁ : p.length ≤ s₁.index + fuel := by omega
      obtain ⟨new, hturn⟩ := step_followed hroot hstep hchar (not_quantifier_of_scan h hfuel₁)
      obtain ⟨new', hrest⟩ := ih hturn.rooted h hfuel₁
      refine ⟨new ++ new', hrest.rooted, ?_, fun later hlater => ?_, ?_⟩
      · rw [hrest.runs, hturn.runs, List.append_assoc]
      · rw [List.append_assoc]
        exact hturn.ordered _ (hrest.ordered later hlater)
      · intro t tail base later r r' htail hfrom hs
        rw [List.append_assoc] at hs
        obtain ⟨r₁, r₁', hread, hread', hs₁⟩ :=
          hturn.reads t tail base (new' ++ later) r r' htail (hrest.ordered later hfrom) hs
        obtain ⟨r₂, r₂', hread₂, hread₂', hs₂⟩ :=
          hrest.reads t tail base later r₁ r₁' htail hfrom hs₁
        exact ⟨r₂, r₂', hread.trans hread₂, hread'.trans hread₂', hs₂⟩

end Turns

/-! ### What the two texts find -/

section Finding

variable {m : Meaning} {name : Str}

theorem stretch_anything : stretch m.mem name anything 0 = name.length := by
  rw [stretch, List.drop_zero, List.takeWhile_eq_self_iff.mpr fun c _ => m.anything_mem c]

theorem add_stretch_le {a : Atom} {i : Nat} (hi : i ≤ name.length) :
    i + stretch m.mem name a i ≤ name.length := by
  have hle := (List.takeWhile_sublist (m.mem a) (l := name.drop i)).length_le
  rw [List.length_drop] at hle
  rw [stretch]
  omega

/-- An anchored branch is found somewhere exactly when its compiled form is at the start. -/
theorem Anchored.finds {items items' : List HostRe} (h : Anchored items items') :
    (∃ i ≤ name.length, Continues m name items i) ↔ Continues m name items' 0 := by
  cases h with
  | caret rest =>
      simp only [continues_caret, true_and]
      constructor
      · rintro ⟨i, -, -, hrest⟩
        exact hrest
      · exact fun hrest => ⟨0, Nat.zero_le _, rfl, hrest⟩
  | run dots rest =>
      obtain ⟨plus, lazy⟩ := dots
      have hcrossing : ∀ j, j ∈ endsIn m name (.group (inTurn [.rep anything 0 none lazy])) 0 ↔
          j ≤ name.length := by
        intro j
        show j ∈ endsIn m name (inTurn [.rep anything 0 none lazy]) 0 ↔ _
        rw [ends_single, mem_ends_rep]
        simp only [capped, Option.elim_none, stretch_anything, Nat.zero_le, Nat.zero_add, true_and,
          exists_eq_right']
      cases plus with
      | false =>
          show (∃ i ≤ name.length,
            Continues m name (.rep Atom.anyButNewline 0 none lazy :: rest) i) ↔
              Continues m name (.group _ :: rest) 0
          simp only [continues_cons, hcrossing, mem_ends_rep]
          constructor
          · rintro ⟨i, hi, _, ⟨n, -, hn, rfl⟩, hrest⟩
            exact ⟨i + n, Nat.le_trans (Nat.add_le_add_left hn i) (add_stretch_le hi), hrest⟩
          · rintro ⟨j, hj, hrest⟩
            exact ⟨j, hj, j, ⟨0, le_refl _, Nat.zero_le _, rfl⟩, hrest⟩
      | true =>
          show (∃ i ≤ name.length,
            Continues m name (.rep Atom.anyButNewline 1 none lazy :: rest) i) ↔
              Continues m name (.group _ :: .atom Atom.anyButNewline :: rest) 0
          simp only [continues_cons, hcrossing, mem_ends_rep, mem_ends_atom]
          constructor
          · rintro ⟨i, hi, _, ⟨n, hone, hn, rfl⟩, hrest⟩
            have hhit := hit_of_lt_stretch m.mem name (show i ≤ i + n - 1 by omega)
              (show i + n - 1 < i + stretch m.mem name Atom.anyButNewline i by
                have : n ≤ stretch m.mem name Atom.anyButNewline i := hn
                omega)
            obtain ⟨c, hc, hmem⟩ := (Option.any_eq_true _ _).mp hhit
            have hin := lt_of_getElem? hc
            exact ⟨i + n - 1, hin.le, i + n, ⟨⟨c, hc, hmem⟩, by omega⟩, hrest⟩
          · rintro ⟨j, hj, _, ⟨⟨c, hc, hmem⟩, rfl⟩, hrest⟩
            refine ⟨j, hj, j + 1, ⟨1, le_refl _, ?_, rfl⟩, hrest⟩
            show 1 ≤ ((name.drop j).takeWhile _).length
            rw [drop_of_getElem? hc, List.takeWhile_cons_of_pos hmem]
            exact Nat.succ_le_succ (Nat.zero_le _)

theorem forall₂_exists {α β : Type} {R : α → β → Prop} {P : α → Prop} {Q : β → Prop}
    {xs : List α} {ys : List β} (h : List.Forall₂ R xs ys) (hR : ∀ x y, R x y → (P x ↔ Q y)) :
    (∃ x ∈ xs, P x) ↔ ∃ y ∈ ys, Q y := by
  induction h with
  | nil => exact iff_of_false (by simp) (by simp)
  | cons hxy _ ih => simp only [List.mem_cons, exists_eq_or_imp, hR _ _ hxy, ih]

theorem Pair.finds {frame : Frame} {level level' : Level} (h : Pair frame level level')
    (hanchored : frame.endBranch.unanchored = 0) :
    (∃ i ≤ name.length, endsIn m name level.re i ≠ []) ↔ endsIn m name level'.re 0 ≠ [] := by
  have hparts : frame.unanchored + (if frame.branchAnchored = true then 0 else 1) = 0 := hanchored
  have hbranch : frame.branchAnchored = true := by
    by_contra hfalse
    rw [if_neg hfalse] at hparts
    omega
  have hbranches : List.Forall₂ (fun r r' => ∃ items items', Anchored items items' ∧
      r = branchOf items ∧ r' = branchOf items') level.endBranch.finished
      level'.endBranch.finished :=
    List.rel_append (h.finished (by omega)) (.cons ⟨_, _, h.anchored hbranch, rfl, rfl⟩ .nil)
  have hends : ∀ (level : Level) i, endsIn m name level.re i ≠ [] ↔
      ∃ r ∈ level.endBranch.finished, endsIn m name r i ≠ [] := by
    intro level i
    have hne : level.endBranch.finished ≠ [] := List.append_ne_nil_of_right_ne_nil _ (by simp)
    constructor
    · intro hfound
      obtain ⟨j, hj⟩ := List.exists_mem_of_ne_nil _ hfound
      obtain ⟨r, hr, hj⟩ := (mem_ends_alternation hne).mp hj
      exact ⟨r, hr, List.ne_nil_of_mem hj⟩
    · rintro ⟨r, hr, hfound⟩
      obtain ⟨j, hj⟩ := List.exists_mem_of_ne_nil _ hfound
      exact List.ne_nil_of_mem ((mem_ends_alternation hne).mpr ⟨r, hr, hj⟩)
  have hswap : (∃ i ≤ name.length, endsIn m name level.re i ≠ []) ↔
      ∃ r ∈ level.endBranch.finished, ∃ i ≤ name.length, endsIn m name r i ≠ [] := by
    simp only [hends]
    constructor
    · rintro ⟨i, hi, r, hr, hfound⟩
      exact ⟨r, hr, i, hi, hfound⟩
    · rintro ⟨r, hr, i, hi, hfound⟩
      exact ⟨i, hi, r, hr, hfound⟩
  rw [hswap, hends]
  refine forall₂_exists hbranches ?_
  rintro _ _ ⟨items, items', hitems, rfl, rfl⟩
  simp only [ends_branchOf]
  exact hitems.finds

end Finding

/-- A scanned pattern and the text with its dot runs spelled out both read, and the frame the scan
ends with pairs their levels. -/
theorem readings_of_scan {p : Str} {s : Scan}
    (h : scan p p.length { frame := { top := true } } = .ok s)
    (houter : s.outer = []) :
    ∃ level level', readRegex p = some level.re ∧
      readRegex (compileText p s.frame.dotRuns) =
        some (inTurn [.zero .caret, .group level'.re]) ∧
      Pair s.frame level level' := by
  obtain ⟨new, hscan⟩ := scan_followed (s := { frame := { top := true } }) rfl h
    (Nat.le_add_left _ _)
  have hruns : s.frame.dotRuns = new := by
    have hnew := hscan.runs
    rwa [houter] at hnew
  rw [hruns]
  have hplain : Closing [')'] := by
    rintro c ⟨⟩
    decide
  let start : Level := { dotAll := false }
  have hrest : (compileText p new).drop 4 = compileParts p (new ++ []) 0 ++ [')'] := by
    rw [List.append_nil]
    rfl
  have hstack : Stacks (start.push (.zero .caret)) { top := true } [] start [] start
      [start.push (.zero .caret)] :=
    .top rfl ⟨rfl, iff_of_true rfl rfl, fun _ => rfl, fun hne => absurd rfl hne⟩
      ⟨rfl, fun _ => rfl, fun htrue => absurd htrue Bool.false_ne_true, fun _ => .nil⟩
  obtain ⟨r, r', hread, hread', hend⟩ := hscan.reads (compileText p new) [')']
    (start.push (.zero .caret)) [] ⟨0, start, []⟩ ⟨4, start, [start.push (.zero .caret)]⟩ hplain
    trivial ⟨rfl, hrest, hstack⟩
  have hlength : p.length ≤ s.index := scan_index h (Nat.le_add_left _ _)
  obtain ⟨hindex, hclosing, hstack'⟩ := hend
  obtain ⟨i, level, outer⟩ := r
  obtain ⟨i', level', outer'⟩ := r'
  dsimp only at hindex hclosing hstack'
  rw [houter] at hstack'
  cases hstack' with
  | top _ _ hpair =>
      refine ⟨level, level', ?_, ?_, hpair⟩
      · rw [readRegex_eq]
        show (readFrom p ⟨0, start, []⟩).bind _ = _
        rw [hread, readFrom_end (List.drop_eq_nil_of_le (by rw [hindex]; exact hlength))]
        rfl
      · have hclose : (compileText p new).drop i' = [')'] := by
          rw [hclosing]
          show p.drop s.index ++ [')'] = _
          rw [List.drop_eq_nil_of_le hlength, List.nil_append]
        have hcaret : readFrom (compileText p new) ⟨0, start, []⟩ = _ :=
          readFrom_zero rfl (Or.inl ⟨rfl, rfl⟩)
        have hopen := hcaret.trans (readFrom_open rfl rfl)
        have hgroup := hopen.trans (hread'.trans (readFrom_close hclose rfl
          (quantifier?_none (drop_succ_of_drop hclose) (by rintro c ⟨⟩)) rfl))
        rw [readRegex_eq]
        show (readFrom (compileText p new) ⟨0, start, []⟩).bind _ = _
        rw [hgroup, readFrom_end (drop_succ_of_drop hclose)]
        rfl

theorem of_finish {p : Str} {s : Scan} {a : Admitted} (h : finish p s = .ok a) :
    s.outer = [] ∧ (a.compileText = p ∨
      s.frame.endBranch.unanchored = 0 ∧ a.compileText = compileText p s.frame.dotRuns) := by
  unfold finish at h
  split at h
  · cases h
  next houter =>
  rw [Bool.not_eq_true, Bool.not_eq_false', List.isEmpty_iff] at houter
  refine ⟨houter, ?_⟩
  dsimp only at h
  generalize (if (s.frame.endBranch.unanchored == 0) = true then 1 else regexCostUnbounded) = k at h
  split at h
  · cases h
  split at h
  · cases h
  cases h
  dsimp only
  split
  · next hwrapped =>
      rw [Bool.and_eq_true, beq_iff_eq] at hwrapped
      exact Or.inr ⟨hwrapped.1, rfl⟩
  · exact Or.inl rfl

/-- The compile text means the pattern. -/
theorem compile_text_means_pattern {p text : Str} {cost : Nat}
    (h : regexAdmission p = (cost, none, text)) :
    (readRegex p).isSome = true ∧ (readRegex text).isSome = true ∧
      ∀ (m : Meaning) (name : Str), Finds m p name ↔ Finds m text name := by
  obtain ⟨a, hadmit, -, rfl⟩ := regexAdmission_eq_admitted h
  obtain ⟨s, hscan, hfinish⟩ := scan_of_admitPattern hadmit
  obtain ⟨houter, htext⟩ := of_finish hfinish
  obtain ⟨level, level', hread, hread', hpair⟩ := readings_of_scan hscan houter
  rcases htext with htext | ⟨hanchored, htext⟩
  · rw [htext, hread]
    exact ⟨rfl, rfl, fun m name => Iff.rfl⟩
  · rw [htext, hread, hread']
    refine ⟨rfl, rfl, fun m name => ?_⟩
    rw [finds_iff hread, finds_iff hread', hpair.finds hanchored]
    show _ ↔ ∃ i ≤ name.length, Continues m name [.zero .caret, .group level'.re] i
    simp only [continues_caret]
    simp only [continues_cons, continues_nil, and_true]
    constructor
    · intro hfound
      exact ⟨0, Nat.zero_le _, rfl, List.exists_mem_of_ne_nil _ hfound⟩
    · rintro ⟨i, -, -, j, hj⟩
      exact List.ne_nil_of_mem hj

theorem compile_text_means_pattern_runs :
    Finds octets ".*ads|^x|.+?y$".toList "top\nmy ads".toList ↔
      Finds octets "^(?:(?s:.*)ads|^x|(?s:.*?)[^\\n]y$)".toList "top\nmy ads".toList := by
  have hadmission : regexAdmission ".*ads|^x|.+?y$".toList =
      (1797, none, "^(?:(?s:.*)ads|^x|(?s:.*?)[^\\n]y$)".toList) := by decide
  exact (compile_text_means_pattern hadmission).2.2 octets "top\nmy ads".toList

end PfBlockerNG.CompileText
