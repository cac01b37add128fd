import PfBlockerNG.DecisionMemo
import PfBlockerNG.Transitions

/-!
Query threads, query-channel answers and swaps that interleave at every cache operation,
attribute write and rebind. `Decision` objects live in a heap and the cache maps names to
references, so that a thread can hold an object the cache no longer maps to.
-/

namespace PfBlockerNG.SnapshotGenerations

open PfBlockerNG.Strings
open PfBlockerNG.LruCache
open PfBlockerNG.DecisionMemo
open PfBlockerNG.Transitions

universe u v

variable {δ : Type u} {ω : Type v}

structure Snapshot (δ : Type u) where
  gen : Nat
  data : δ

abbrev Ref := Nat

/-- The attribute write that ends one use of `_decision_for`. -/
inductive Write (ω : Type v) where
  | dnsbl (verdict : ω)
  | noaaaa (block : Bool)
  | safesearch (entry : Option SafeSearchEntry)

/-- Next atomic step of a thread. -/
inductive Pc (ω : Type v) where
  | lookup
  | test (dec : Option Ref)
  | getDecision (key : Str) (w : Write ω)
  | testDecision (key : Str) (dec : Option Ref) (w : Write ω)
  | insert (key : Str) (ref : Ref) (w : Write ω)
  | write (ref : Ref) (w : Write ω)
  | finished

/-- A query, a query-channel answer or the evaluation of another axis, with the snapshot
it captured; `rest` are the names still to validate. -/
structure Thread (δ : Type u) (ω : Type v) where
  snap : Snapshot δ
  ask : Ask
  rest : List Str
  pc : Pc ω

/-- `rebuild_and_swap` once its snapshot is built. -/
inductive Swap (δ : Type u) where
  | rebind (s : Snapshot δ)
  | clear
  | done

/-- A verdict acted on: the snapshot its query captured and the name it was for. -/
structure Served (δ : Type u) (ω : Type v) where
  captured : Snapshot δ
  name : Str
  verdict : ω

/-- The shared state; `built` are all snapshots ever built. -/
structure World (δ : Type u) (ω : Type v) where
  live : Snapshot δ
  built : List (Snapshot δ)
  nextGen : Nat
  cache : Lru Str Ref
  heap : List (Decision ω)
  threads : List (Thread δ ω)
  swaps : List (Swap δ)
  served : List (Served δ ω)

inductive Event (δ : Type u) (ω : Type v) where
  | query (name : Str) (tld : Str) (targets : List Str)
  | channel (name : Str)
  | axis (name : Str) (w : Write ω)
  | rebuild (data : δ)
  | thread (i : Nat)
  | swap (j : Nat)

variable (evaluate : Snapshot δ → Ask → ω) (blocks : ω → Bool) (tldOf : Str → Str)

/-- The query goes on to its next name, unless the verdict blocks. -/
def advance (t : Thread δ ω) (verdict : ω) : Thread δ ω :=
  match blocks verdict, t.rest with
  | false, target :: rest =>
      { t with
        ask := { t.ask with qName := target, tld := tldOf target, isCname := true }
        rest := rest
        pc := .lookup }
  | _, _ => { t with pc := .finished }

def serve (t : Thread δ ω) (verdict : ω) (w : World δ ω) : World δ ω × Thread δ ω :=
  ({ w with served := w.served ++ [⟨t.snap, t.ask.qName, verdict⟩] },
    advance blocks tldOf t verdict)

/-- The object the generation test accepts, and its DNSBL axis. -/
def readAxis (t : Thread δ ω) (w : World δ ω) (dec : Option Ref) : Option ω :=
  match dec.bind (w.heap[·]?) with
  | some d => if d.snapGen = t.snap.gen then d.dnsbl else none
  | none => none

/-- The generation test of `operate` and what follows it up to the next cache access. -/
def testStep (t : Thread δ ω) (w : World δ ω) (dec : Option Ref) : World δ ω × Thread δ ω :=
  match readAxis t w dec with
  | none =>
      let verdict := evaluate t.snap t.ask
      let key := if blocks verdict && t.ask.isCname then t.ask.qNameOriginal else t.ask.qName
      (w, { t with pc := .getDecision key (.dnsbl verdict) })
  | some verdict =>
      if t.ask.isCname && blocks verdict then
        let again := evaluate t.snap { t.ask with tld := tldOf t.ask.qName }
        if blocks again then (w, { t with pc := .getDecision t.ask.qNameOriginal (.dnsbl again) })
        else serve blocks tldOf t again w
      else serve blocks tldOf t verdict w

/-- `_decision_for` after its `get`: reuse, replace, or write into a throwaway. -/
def testDecisionStep (t : Thread δ ω) (w : World δ ω) (key : Str) (dec : Option Ref)
    (axisWrite : Write ω) : World δ ω × Thread δ ω :=
  let fresh : World δ ω := { w with heap := w.heap ++ [{ snapGen := t.snap.gen }] }
  match dec.bind fun ref => (w.heap[ref]?).map fun d => (ref, d) with
  | some (ref, d) =>
      if t.snap.gen < d.snapGen then (fresh, { t with pc := .write w.heap.length axisWrite })
      else if d.snapGen = t.snap.gen then (w, { t with pc := .write ref axisWrite })
      else (fresh, { t with pc := .insert key w.heap.length axisWrite })
  | none => (fresh, { t with pc := .insert key w.heap.length axisWrite })

def writeAxis (d : Decision ω) : Write ω → Decision ω
  | .dnsbl verdict => { d with dnsbl := some verdict }
  | .noaaaa block => { d with noaaaa := d.noaaaa.or (some block) }
  | .safesearch entry => { d with safesearch := d.safesearch.or (some entry) }

def writeStep (t : Thread δ ω) (w : World δ ω) (ref : Ref) (axisWrite : Write ω) :
    World δ ω × Thread δ ω :=
  let w := { w with heap := w.heap.modify ref (writeAxis · axisWrite) }
  match axisWrite with
  | .dnsbl verdict => serve blocks tldOf t verdict w
  | _ => (w, { t with pc := .finished })

/-- One atomic step of a thread. -/
def threadStep (t : Thread δ ω) (w : World δ ω) : World δ ω × Thread δ ω :=
  match t.pc with
  | .lookup =>
      let (dec, cache) := w.cache.get t.ask.qName
      ({ w with cache := cache }, { t with pc := .test dec })
  | .test dec => testStep evaluate blocks tldOf t w dec
  | .getDecision key axisWrite =>
      let (dec, cache) := w.cache.get key
      ({ w with cache := cache }, { t with pc := .testDecision key dec axisWrite })
  | .testDecision key dec axisWrite => testDecisionStep t w key dec axisWrite
  | .insert key ref axisWrite =>
      ({ w with cache := w.cache.set key ref }, { t with pc := .write ref axisWrite })
  | .write ref axisWrite => writeStep blocks tldOf t w ref axisWrite
  | .finished => (w, t)

def swapStep (swap : Swap δ) (w : World δ ω) : World δ ω × Swap δ :=
  match swap with
  | .rebind s => ({ w with live := s }, .clear)
  | .clear => ({ w with cache := w.cache.clear }, .done)
  | .done => (w, .done)

def step (w : World δ ω) : Event δ ω → Option (World δ ω)
  | .query name tld targets =>
      some { w with threads := w.threads ++
        [⟨w.live, ⟨name, name, tld, false⟩, targets, .lookup⟩] }
  | .channel name =>
      let ask : Ask := ⟨name, name, tldOf name, false⟩
      some { w with threads := w.threads ++
        [⟨w.live, ask, [], .getDecision name (.dnsbl (evaluate w.live ask))⟩] }
  | .axis name axisWrite =>
      match axisWrite with
      | .dnsbl _ => none
      | _ => some { w with threads := w.threads ++
          [⟨w.live, ⟨name, name, [], false⟩, [], .getDecision name axisWrite⟩] }
  | .rebuild data =>
      let s : Snapshot δ := ⟨w.nextGen, data⟩
      some { w with
        built := w.built ++ [s]
        nextGen := w.nextGen + 1
        swaps := w.swaps ++ [.rebind s] }
  | .thread i =>
      match w.threads[i]? with
      | none => none
      | some t =>
          let (w', t') := threadStep evaluate blocks tldOf t w
          some { w' with threads := w'.threads.set i t' }
  | .swap j =>
      match w.swaps[j]? with
      | none => none
      | some swap =>
          let (w', swap') := swapStep swap w
          some { w' with swaps := w'.swaps.set j swap' }

/-! ### The stamp is the invariant -/

/-- The verdict was computed against this snapshot. -/
def ComputedOn (s : Snapshot δ) (verdict : ω) : Prop := ∃ ask, verdict = evaluate s ask

def WriteSound (s : Snapshot δ) : Write ω → Prop
  | .dnsbl verdict => ComputedOn evaluate s verdict
  | _ => True

/-- The reference holds an object stamped with the generation of `s`. -/
def Stamped (heap : List (Decision ω)) (s : Snapshot δ) (ref : Ref) : Prop :=
  ∃ d, heap[ref]? = some d ∧ d.snapGen = s.gen

/-- What a thread holds between two atomic steps. -/
def PcSound (heap : List (Decision ω)) (s : Snapshot δ) : Pc ω → Prop
  | .getDecision _ axisWrite => WriteSound evaluate s axisWrite
  | .testDecision _ _ axisWrite => WriteSound evaluate s axisWrite
  | .insert _ ref axisWrite => WriteSound evaluate s axisWrite ∧ Stamped heap s ref
  | .write ref axisWrite => WriteSound evaluate s axisWrite ∧ Stamped heap s ref
  | _ => True

/-- A verdict in a `Decision` was computed against the snapshot of its generation. -/
def HeapSound (built : List (Snapshot δ)) (heap : List (Decision ω)) : Prop :=
  ∀ d ∈ heap, ∀ verdict, d.dnsbl = some verdict →
    ∃ s ∈ built, s.gen = d.snapGen ∧ ComputedOn evaluate s verdict

def ServedSound (served : List (Served δ ω)) : Prop :=
  ∀ r ∈ served, ComputedOn evaluate r.captured r.verdict

structure Sound (w : World δ ω) : Prop where
  unique : ∀ s ∈ w.built, ∀ t ∈ w.built, s.gen = t.gen → s = t
  bounded : ∀ s ∈ w.built, s.gen < w.nextGen
  live : w.live ∈ w.built
  threads : ∀ t ∈ w.threads, t.snap ∈ w.built ∧ PcSound evaluate w.heap t.snap t.pc
  swaps : ∀ s, Swap.rebind s ∈ w.swaps → s ∈ w.built
  heap : HeapSound evaluate w.built w.heap
  served : ServedSound evaluate w.served

/-- Objects are only added, and an object never changes its stamp. -/
def Extends (heap heap' : List (Decision ω)) : Prop :=
  ∀ (s : Snapshot Unit) ref, Stamped heap s ref → Stamped heap' s ref

theorem Stamped.extends {heap heap' : List (Decision ω)} (h : Extends heap heap')
    {s : Snapshot δ} {ref : Ref} (hs : Stamped heap s ref) : Stamped heap' s ref :=
  h ⟨s.gen, ()⟩ ref hs

theorem PcSound.extends {heap heap' : List (Decision ω)} (h : Extends heap heap')
    {s : Snapshot δ} {pc : Pc ω} (hpc : PcSound evaluate heap s pc) :
    PcSound evaluate heap' s pc := by
  cases pc with
  | insert key ref axisWrite => exact ⟨hpc.1, hpc.2.extends h⟩
  | write ref axisWrite => exact ⟨hpc.1, hpc.2.extends h⟩
  | _ => exact hpc

/-- What one step of a thread does to the shared state and to the thread. -/
structure ThreadSpec (w : World δ ω) (t : Thread δ ω) (r : World δ ω × Thread δ ω) : Prop where
  live : r.1.live = w.live
  built : r.1.built = w.built
  nextGen : r.1.nextGen = w.nextGen
  threads : r.1.threads = w.threads
  swaps : r.1.swaps = w.swaps
  grows : Extends w.heap r.1.heap
  heap : HeapSound evaluate w.built r.1.heap
  served : ServedSound evaluate r.1.served
  snap : r.2.snap = t.snap
  pc : PcSound evaluate r.1.heap t.snap r.2.pc

theorem Extends.refl (heap : List (Decision ω)) : Extends heap heap := fun _ _ h => h

theorem extends_append (heap : List (Decision ω)) (d : Decision ω) :
    Extends heap (heap ++ [d]) := by
  rintro s ref ⟨d', hd', hgen⟩
  obtain ⟨hlt, -⟩ := List.getElem?_eq_some_iff.mp hd'
  exact ⟨d', by rw [List.getElem?_append_left hlt, hd'], hgen⟩

theorem snapGen_writeAxis (d : Decision ω) (axisWrite : Write ω) :
    (writeAxis d axisWrite).snapGen = d.snapGen := by
  cases axisWrite <;> rfl

theorem extends_modify (heap : List (Decision ω)) (ref : Ref) (axisWrite : Write ω) :
    Extends heap (heap.modify ref (writeAxis · axisWrite)) := by
  rintro s ref' ⟨d, hd, hgen⟩
  rw [Stamped, List.getElem?_modify, hd]
  by_cases h : ref = ref'
  · exact ⟨writeAxis d axisWrite, by simp [h], by rw [snapGen_writeAxis, hgen]⟩
  · exact ⟨d, by simp [h], hgen⟩

theorem heapSound_append {built : List (Snapshot δ)} {heap : List (Decision ω)}
    (h : HeapSound evaluate built heap) (gen : Nat) :
    HeapSound evaluate built (heap ++ [{ snapGen := gen }]) := by
  intro d hd verdict hverdict
  rcases List.mem_append.mp hd with hd | hd
  · exact h d hd verdict hverdict
  · rw [List.mem_singleton] at hd
    subst hd
    cases hverdict

/-- A write into an object of the writer's own generation. -/
theorem heapSound_modify {built : List (Snapshot δ)} {heap : List (Decision ω)}
    (h : HeapSound evaluate built heap) {s : Snapshot δ} (hs : s ∈ built) {ref : Ref}
    (hstamp : Stamped heap s ref) {axisWrite : Write ω} (hw : WriteSound evaluate s axisWrite) :
    HeapSound evaluate built (heap.modify ref (writeAxis · axisWrite)) := by
  intro d' hd' verdict hverdict
  obtain ⟨i, hi⟩ := List.mem_iff_getElem?.mp hd'
  rw [List.getElem?_modify] at hi
  by_cases hri : ref = i
  · subst hri
    obtain ⟨d, hd, hgen⟩ := hstamp
    rw [hd] at hi
    obtain rfl : writeAxis d axisWrite = d' := by simpa using hi
    cases axisWrite with
    | dnsbl computed =>
        obtain rfl := Option.some.inj hverdict
        exact ⟨s, hs, hgen.symm, hw⟩
    | noaaaa block => exact h d (List.mem_iff_getElem?.mpr ⟨ref, hd⟩) verdict hverdict
    | safesearch entry => exact h d (List.mem_iff_getElem?.mpr ⟨ref, hd⟩) verdict hverdict
  · have hold : heap[i]? = some d' := by simpa [hri] using hi
    exact h d' (List.mem_iff_getElem?.mpr ⟨i, hold⟩) verdict hverdict

theorem advance_snap (t : Thread δ ω) (verdict : ω) :
    (advance blocks tldOf t verdict).snap = t.snap := by
  unfold advance
  split <;> rfl

theorem advance_pc (t : Thread δ ω) (verdict : ω) (heap : List (Decision ω)) (s : Snapshot δ) :
    PcSound evaluate heap s (advance blocks tldOf t verdict).pc := by
  unfold advance
  split <;> exact trivial

theorem serve_spec {w : World δ ω} {t : Thread δ ω} {verdict : ω} {heap : List (Decision ω)}
    (hgrows : Extends w.heap heap) (hheap : HeapSound evaluate w.built heap)
    (hserved : ServedSound evaluate w.served) (hverdict : ComputedOn evaluate t.snap verdict) :
    ThreadSpec evaluate w t (serve blocks tldOf t verdict { w with heap := heap }) where
  live := rfl
  built := rfl
  nextGen := rfl
  threads := rfl
  swaps := rfl
  grows := hgrows
  heap := hheap
  served := by
    intro r hr
    rcases List.mem_append.mp hr with hr | hr
    · exact hserved r hr
    · rw [List.mem_singleton] at hr
      exact hr ▸ hverdict
  snap := advance_snap blocks tldOf t verdict
  pc := advance_pc evaluate blocks tldOf t verdict _ _

/-- A step that only moves the thread on, and perhaps the recency of the cache. -/
theorem ThreadSpec.moved {w : World δ ω} (hw : Sound evaluate w) {t : Thread δ ω}
    (cache : Lru Str Ref) {pc : Pc ω} (hpc : PcSound evaluate w.heap t.snap pc) :
    ThreadSpec evaluate w t ({ w with cache := cache }, { t with pc := pc }) :=
  ⟨rfl, rfl, rfl, rfl, rfl, Extends.refl _, hw.heap, hw.served, rfl, hpc⟩

/-- The axis that passes the generation test was computed on the captured snapshot. -/
theorem readAxis_computed {w : World δ ω} (hw : Sound evaluate w) {t : Thread δ ω}
    (ht : t.snap ∈ w.built) {dec : Option Ref} {verdict : ω}
    (h : readAxis t w dec = some verdict) : ComputedOn evaluate t.snap verdict := by
  unfold readAxis at h
  split at h
  · rename_i d hd
    split at h
    · rename_i hgen
      obtain ⟨ref, -, href⟩ := Option.bind_eq_some_iff.mp hd
      obtain ⟨s, hs, hsgen, hcomputed⟩ :=
        hw.heap d (List.mem_iff_getElem?.mpr ⟨ref, href⟩) verdict h
      exact hw.unique s hs t.snap ht (hsgen.trans hgen) ▸ hcomputed
    · cases h
  · cases h

theorem testStep_spec {w : World δ ω} (hw : Sound evaluate w) {t : Thread δ ω}
    (ht : t.snap ∈ w.built) (dec : Option Ref) :
    ThreadSpec evaluate w t (testStep evaluate blocks tldOf t w dec) := by
  unfold testStep
  split
  · exact .moved evaluate hw w.cache ⟨_, rfl⟩
  · rename_i verdict hverdict
    have hcomputed := readAxis_computed evaluate hw ht hverdict
    split
    · simp only
      split
      · exact .moved evaluate hw w.cache ⟨_, rfl⟩
      · exact serve_spec evaluate blocks tldOf (Extends.refl _) hw.heap hw.served ⟨_, rfl⟩
    · exact serve_spec evaluate blocks tldOf (Extends.refl _) hw.heap hw.served hcomputed

theorem stamped_fresh (heap : List (Decision ω)) (s : Snapshot δ) :
    Stamped (heap ++ [{ snapGen := s.gen }]) s heap.length :=
  ⟨{ snapGen := s.gen }, by simp, rfl⟩

theorem testDecisionStep_spec {w : World δ ω} (hw : Sound evaluate w) {t : Thread δ ω}
    (key : Str) (dec : Option Ref) {axisWrite : Write ω}
    (hwrite : WriteSound evaluate t.snap axisWrite) :
    ThreadSpec evaluate w t (testDecisionStep t w key dec axisWrite) := by
  have hfresh : ∀ pc, PcSound evaluate (w.heap ++ [{ snapGen := t.snap.gen }]) t.snap pc →
      ThreadSpec evaluate w t
        ({ w with heap := w.heap ++ [{ snapGen := t.snap.gen }] }, { t with pc := pc }) :=
    fun pc hpc => ⟨rfl, rfl, rfl, rfl, rfl, extends_append _ _, heapSound_append evaluate hw.heap _,
      hw.served, rfl, hpc⟩
  unfold testDecisionStep
  simp only
  split
  · rename_i ref d hdec
    split
    · exact hfresh _ ⟨hwrite, stamped_fresh _ _⟩
    · split
      · rename_i hgen
        obtain ⟨ref', -, href⟩ := Option.bind_eq_some_iff.mp hdec
        obtain ⟨d', hd', hpair⟩ := Option.map_eq_some_iff.mp href
        simp only [Prod.mk.injEq] at hpair
        obtain ⟨rfl, rfl⟩ := hpair
        exact .moved evaluate hw w.cache ⟨hwrite, d', hd', hgen⟩
      · exact hfresh _ ⟨hwrite, stamped_fresh _ _⟩
  · exact hfresh _ ⟨hwrite, stamped_fresh _ _⟩

theorem writeStep_spec {w : World δ ω} (hw : Sound evaluate w) {t : Thread δ ω}
    (ht : t.snap ∈ w.built) {ref : Ref} {axisWrite : Write ω}
    (hwrite : WriteSound evaluate t.snap axisWrite) (hstamp : Stamped w.heap t.snap ref) :
    ThreadSpec evaluate w t (writeStep blocks tldOf t w ref axisWrite) := by
  have hheap := heapSound_modify evaluate hw.heap ht hstamp hwrite
  have hgrows := extends_modify w.heap ref axisWrite
  cases axisWrite with
  | dnsbl verdict => exact serve_spec evaluate blocks tldOf hgrows hheap hw.served hwrite
  | noaaaa block =>
      exact ⟨rfl, rfl, rfl, rfl, rfl, hgrows, hheap, hw.served, rfl, trivial⟩
  | safesearch entry =>
      exact ⟨rfl, rfl, rfl, rfl, rfl, hgrows, hheap, hw.served, rfl, trivial⟩

theorem threadStep_spec {w : World δ ω} (hw : Sound evaluate w) {t : Thread δ ω}
    (ht : t ∈ w.threads) :
    ThreadSpec evaluate w t (threadStep evaluate blocks tldOf t w) := by
  obtain ⟨hsnap, hpc⟩ := hw.threads t ht
  unfold threadStep
  split
  · exact .moved evaluate hw _ trivial
  · exact testStep_spec evaluate blocks tldOf hw hsnap _
  · rename_i key axisWrite hstep
    rw [hstep] at hpc
    exact .moved evaluate hw _ hpc
  · rename_i key dec axisWrite hstep
    rw [hstep] at hpc
    exact testDecisionStep_spec evaluate hw key dec hpc
  · rename_i key ref axisWrite hstep
    rw [hstep] at hpc
    exact .moved evaluate hw _ hpc
  · rename_i ref axisWrite hstep
    rw [hstep] at hpc
    exact writeStep_spec evaluate blocks tldOf hw hsnap hpc.1 hpc.2
  · rename_i hstep
    exact ⟨rfl, rfl, rfl, rfl, rfl, Extends.refl _, hw.heap, hw.served, rfl, hpc⟩

/-- A world that differs in fields the invariant reads only through membership. -/
theorem sound_thread {w : World δ ω} (hw : Sound evaluate w) {i : Nat} {t : Thread δ ω}
    (hget : w.threads[i]? = some t) {r : World δ ω × Thread δ ω}
    (h : ThreadSpec evaluate w t r) :
    Sound evaluate { r.1 with threads := r.1.threads.set i r.2 } where
  unique := by simpa only [h.built] using hw.unique
  bounded := by simpa only [h.built, h.nextGen] using hw.bounded
  live := by simpa only [h.built, h.live] using hw.live
  threads := by
    intro u hu
    simp only [h.built, h.threads] at hu ⊢
    rcases List.mem_or_eq_of_mem_set hu with hu | rfl
    · obtain ⟨hsnap, hpc⟩ := hw.threads u hu
      exact ⟨hsnap, hpc.extends evaluate h.grows⟩
    · rw [h.snap]
      exact ⟨(hw.threads t (List.mem_of_getElem? hget)).1, h.pc⟩
  swaps := by simpa only [h.built, h.swaps] using hw.swaps
  heap := by simpa only [h.built] using h.heap
  served := h.served

theorem sound_spawn {w : World δ ω} (hw : Sound evaluate w) {ask : Ask} {rest : List Str}
    {pc : Pc ω} (hpc : PcSound evaluate w.heap w.live pc) :
    Sound evaluate { w with threads := w.threads ++ [⟨w.live, ask, rest, pc⟩] } where
  unique := hw.unique
  bounded := hw.bounded
  live := hw.live
  threads := by
    intro t ht
    rcases List.mem_append.mp ht with ht | ht
    · exact hw.threads t ht
    · rw [List.mem_singleton] at ht
      subst ht
      exact ⟨hw.live, hpc⟩
  swaps := hw.swaps
  heap := hw.heap
  served := hw.served

theorem sound_rebuild {w : World δ ω} (hw : Sound evaluate w) (data : δ) :
    Sound evaluate { w with
      built := w.built ++ [⟨w.nextGen, data⟩]
      nextGen := w.nextGen + 1
      swaps := w.swaps ++ [.rebind ⟨w.nextGen, data⟩] } where
  unique := by
    intro s hs t ht hgen
    simp only [List.mem_append, List.mem_singleton] at hs ht
    rcases hs with hs | rfl <;> rcases ht with ht | rfl
    · exact hw.unique s hs t ht hgen
    · have hlt := hw.bounded s hs
      exact absurd hgen (Nat.ne_of_lt hlt)
    · have hlt := hw.bounded t ht
      exact absurd hgen.symm (Nat.ne_of_lt hlt)
    · rfl
  bounded := by
    intro s hs
    simp only [List.mem_append, List.mem_singleton] at hs
    rcases hs with hs | rfl
    · exact Nat.lt_succ_of_lt (hw.bounded s hs)
    · exact Nat.lt_succ_self _
  live := List.mem_append_left _ hw.live
  threads := fun t ht => ⟨List.mem_append_left _ (hw.threads t ht).1, (hw.threads t ht).2⟩
  swaps := by
    intro s hs
    simp only [List.mem_append, List.mem_singleton, Swap.rebind.injEq] at hs ⊢
    exact hs.imp_left (hw.swaps s)
  heap := by
    intro d hd verdict hverdict
    obtain ⟨s, hs, hgen, hcomputed⟩ := hw.heap d hd verdict hverdict
    exact ⟨s, List.mem_append_left _ hs, hgen, hcomputed⟩
  served := hw.served

theorem sound_swap {w : World δ ω} (hw : Sound evaluate w) {j : Nat} {swap : Swap δ}
    (hget : w.swaps[j]? = some swap) :
    Sound evaluate { (swapStep swap w).1 with
      swaps := (swapStep swap w).1.swaps.set j (swapStep swap w).2 } := by
  have hmem := List.mem_of_getElem? hget
  have hset : ∀ swap' : Swap δ, (∀ s, swap' ≠ .rebind s) → ∀ s,
      Swap.rebind s ∈ w.swaps.set j swap' → s ∈ w.built := by
    intro swap' hne s hs
    rcases List.mem_or_eq_of_mem_set hs with hs | hs
    · exact hw.swaps s hs
    · exact absurd hs.symm (hne s)
  cases swap with
  | rebind s =>
      exact ⟨hw.unique, hw.bounded, hw.swaps s hmem, hw.threads,
        hset .clear (fun _ h => by cases h), hw.heap, hw.served⟩
  | clear =>
      exact ⟨hw.unique, hw.bounded, hw.live, hw.threads,
        hset .done (fun _ h => by cases h), hw.heap, hw.served⟩
  | done =>
      exact ⟨hw.unique, hw.bounded, hw.live, hw.threads,
        hset .done (fun _ h => by cases h), hw.heap, hw.served⟩

theorem sound_step (w : World δ ω) (e : Event δ ω) (w' : World δ ω) (hw : Sound evaluate w)
    (h : step evaluate blocks tldOf w e = some w') : Sound evaluate w' := by
  cases e with
  | query name tld targets =>
      obtain rfl := Option.some.inj h
      exact sound_spawn evaluate hw trivial
  | channel name =>
      obtain rfl := Option.some.inj h
      exact sound_spawn evaluate hw ⟨_, rfl⟩
  | axis name axisWrite =>
      cases axisWrite with
      | dnsbl verdict => cases h
      | noaaaa block =>
          obtain rfl := Option.some.inj h
          exact sound_spawn evaluate hw trivial
      | safesearch entry =>
          obtain rfl := Option.some.inj h
          exact sound_spawn evaluate hw trivial
  | rebuild data =>
      obtain rfl := Option.some.inj h
      exact sound_rebuild evaluate hw data
  | thread i =>
      simp only [step] at h
      split at h
      · cases h
      · rename_i t hget
        obtain rfl := Option.some.inj h
        exact sound_thread evaluate hw hget
          (threadStep_spec evaluate blocks tldOf hw (List.mem_of_getElem? hget))
  | swap j =>
      simp only [step] at h
      split at h
      · cases h
      · rename_i swap hget
        obtain rfl := Option.some.inj h
        exact sound_swap evaluate hw hget

/-- A process that has just installed its first snapshot. -/
def initial (s : Snapshot δ) (maxsize : Int) : World δ ω where
  live := s
  built := [s]
  nextGen := s.gen + 1
  cache := Lru.empty maxsize
  heap := []
  threads := []
  swaps := []
  served := []

theorem sound_initial (s : Snapshot δ) (maxsize : Int) : Sound evaluate (initial s maxsize) where
  unique := by
    intro a ha b hb _
    rw [List.mem_singleton.mp ha, List.mem_singleton.mp hb]
  bounded := by
    intro a ha
    rw [List.mem_singleton.mp ha]
    exact Nat.lt_succ_self _
  live := List.mem_singleton_self s
  threads := by simp [initial]
  swaps := by simp [initial]
  heap := by
    intro d hd
    cases hd
  served := by
    intro r hr
    cases hr

/-- Whatever the interleaving, every verdict a query serves was computed against the
snapshot that query captured. -/
theorem served_computed_on_captured (s₀ : Snapshot δ) (maxsize : Int) (es : List (Event δ ω))
    (w : World δ ω) (h : run (step evaluate blocks tldOf) (initial s₀ maxsize) es = some w) :
    ∀ r ∈ w.served, ComputedOn evaluate r.captured r.verdict :=
  (run_invariant (sound_step evaluate blocks tldOf) (sound_initial evaluate s₀ maxsize) h).served

/-- A query straddles a swap: it captures the first snapshot, and memoizes its verdict
only after the second one is live and the cache is cleared. -/
def straddle : List (Event Nat (Nat × Str)) :=
  let name := "a.com".toList
  [.query name "com".toList [], .thread 0, .rebuild 1, .swap 0, .swap 0, .thread 0, .thread 0,
    .thread 0, .thread 0, .thread 0, .query name "com".toList [], .thread 1, .thread 1, .thread 1,
    .thread 1, .thread 1, .thread 1]

def stamp (s : Snapshot Nat) (ask : Ask) : Nat × Str := (s.data, ask.qName)

theorem served_computed_on_captured_straddle :
    ∃ w, run (step stamp (fun _ => false) id) (initial ⟨1, 0⟩ 0) straddle = some w ∧
      w.served.map (·.verdict.1) = [0, 1] ∧
      ∀ r ∈ w.served, ComputedOn stamp r.captured r.verdict :=
  ⟨_, rfl, rfl, served_computed_on_captured stamp (fun _ => false) id ⟨1, 0⟩ 0 straddle _ rfl⟩

end PfBlockerNG.SnapshotGenerations
