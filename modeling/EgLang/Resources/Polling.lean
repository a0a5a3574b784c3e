import EgLang.Resources.Manager

/-! # Polling brings the resources up to date

A resource whose time stamp is that of its file is what the file would be loaded as now: the time stamp
is read before the file is, so that a file that changes in between is found by a later poll. A poll
loads no more than one file. So once the files do not change any more, as many polls are needed, and
are enough, as there are files with another time stamp.
-/

namespace EgLang.Resources
open Library
set_option autoImplicit false

namespace State
variable {γ ρ : Type} {s t : State γ ρ} {input : Input γ ρ}

/-! ## What the holder of the mutex does -/

/-- **The steps** of the holder of the mutex. -/
inductive GoStep (s : State γ ρ) : State γ ρ → Prop
  | finish {i} (hp : s.phase = .looking i) (hi : s.resources[i]? = none) :
    GoStep s { s with phase := .idle }
  | next {i e file} (hp : s.phase = .looking i) (hi : s.resources[i]? = some e)
      (hf : s.files e.1 = some file) (ht : e.2.timestamp = file.timestamp) :
    GoStep s { s with phase := .looking (i + 1) }
  | stamp {i e file} (hp : s.phase = .looking i) (hi : s.resources[i]? = some e)
      (hf : s.files e.1 = some file) (ht : e.2.timestamp ≠ file.timestamp) :
    GoStep s { s with
      resources := s.resources.set i (e.1, { e.2 with timestamp := file.timestamp })
      phase := .reloading i }
  | reload {i e resource} (hp : s.phase = .reloading i) (hi : s.resources[i]? = some e)
      (hload : e.2.handler e.1 (s.files e.1) = .ok resource) :
    GoStep s { s with
      resources := s.resources.set i (e.1, { e.2 with resource := resource })
      phase := .idle }
  | raise {e path handler} (hp : s.phase = .setting path handler ∨
      ∃ timestamp, s.phase = .loading path handler timestamp) : GoStep s (s.raise e)
  | read {path handler file} (hp : s.phase = .setting path handler)
      (hf : s.files path = some file) :
    GoStep s { s with phase := .loading path handler file.timestamp }
  | insert {path handler timestamp resource} (hp : s.phase = .loading path handler timestamp)
      (hload : handler path (s.files path) = .ok resource) :
    GoStep s { s with
      resources := OrderedMap.insert (· < ·) path ⟨timestamp, resource, handler⟩ s.resources
      phase := .idle
      raised := none }

theorem lastWriteTime_eq_ok {path : ResourcePath} {timestamp : ℤ} :
    s.lastWriteTime path = .ok timestamp ↔
      ∃ file, s.files path = some file ∧ file.timestamp = timestamp := by
  unfold lastWriteTime
  cases s.files path <;> simp

theorem go_cases (h : s.go = .ok t) : GoStep s t := by
  unfold go at h
  split at h
  · cases h
  · rename_i i hp
    split at h
    · rename_i hi
      cases h
      exact .finish hp hi
    · rename_i path res hi
      split at h
      · cases h
      · rename_i timestamp hread
        obtain ⟨file, hf, rfl⟩ := lastWriteTime_eq_ok.mp hread
        split at h
        · rename_i hne
          cases h
          exact .stamp hp hi hf hne
        · rename_i heq
          cases h
          exact .next hp hi hf (not_not.mp heq)
  · rename_i i hp
    split at h
    · cases h
    · rename_i path res hi
      split at h
      · cases h
      · rename_i resource hload
        cases h
        exact .reload hp hi hload
  · rename_i path handler hp
    split at h
    · cases h
      exact .raise (.inl hp)
    · rename_i timestamp hread
      obtain ⟨file, hf, rfl⟩ := lastWriteTime_eq_ok.mp hread
      cases h
      exact .read hp hf
  · rename_i path handler timestamp hp
    split at h
    · cases h
      exact .raise (.inr ⟨timestamp, hp⟩)
    · rename_i resource hload
      cases h
      exact .insert hp hload

/-- The calls that lock the mutex change nothing but who holds it. -/
theorem poll_cases (h : s.step .poll = .ok t) :
    s.phase = .idle ∧ t = { s with phase := .looking 0 } := by
  simp only [step] at h
  split at h
  · rename_i hp
    cases h
    exact ⟨hp, rfl⟩
  · cases h

/-- `set_resource_handler` refuses a path that has a handler, and else goes on to read its file. -/
theorem set_cases {path : ResourcePath} {handler : ResourceHandler γ ρ}
    (h : s.step (.set path handler) = .ok t) : s.phase = .idle ∧
      ((∃ e, t = { s with raised := some e }) ∨ t = { s with phase := .setting path handler }) := by
  simp only [step] at h
  split at h
  · rename_i hp
    cases h
    refine ⟨hp, ?_⟩
    unfold lookUp
    split
    · exact .inl ⟨_, rfl⟩
    · exact .inr rfl
  · cases h

/-! ## Coherence -/

/-- If the file has the time stamp of the resource, the resource is what it is loaded as. -/
def Current (files : ResourcePath → Option (File γ)) (e : ResourcePath × ResourceTimeStamp γ ρ) :
    Prop :=
  ∀ file, files e.1 = some file → file.timestamp = e.2.timestamp →
    e.2.handler e.1 (some file) = .ok e.2.resource

/-- **The invariant**: every resource but the one that is being reloaded is current. -/
def Coherent (s : State γ ρ) : Prop :=
  ∀ i e, s.resources[i]? = some e → s.phase = .reloading i ∨ Current s.files e

/-- **The condition**: no file is written with the time stamp that is recorded of it, except while it is
being reloaded. -/
def Noticeable (s : State γ ρ) : Input γ ρ → Prop
  | .write path file => ∀ i e, s.resources[i]? = some e → e.1 = path →
      s.phase = .reloading i ∨ e.2.timestamp ≠ file.timestamp
  | _ => True

theorem Coherent.current (h : s.Coherent) (hp : ∀ i, s.phase ≠ .reloading i)
    {e : ResourcePath × ResourceTimeStamp γ ρ} (he : e ∈ s.resources) : Current s.files e := by
  obtain ⟨i, hi⟩ := List.mem_iff_getElem?.mp he
  exact (h i e hi).resolve_left (hp i)

theorem coherent_of_current (h : ∀ e ∈ s.resources, Current s.files e) : s.Coherent :=
  fun _ e hi => .inr (h e (List.mem_of_getElem? hi))

theorem coherent_initial (files : ResourcePath → Option (File γ)) :
    (initial files : State γ ρ).Coherent :=
  coherent_of_current fun _ he => absurd he List.not_mem_nil

theorem GoStep.coherent (hgo : GoStep s t) (h : s.Coherent) : t.Coherent := by
  cases hgo with
  | finish hp | next hp =>
    exact coherent_of_current fun e he => h.current (fun i => by rw [hp]; simp) he
  | @stamp i e file hp hi hf ht =>
    intro j e' hj
    by_cases hij : i = j
    · exact .inl (congrArg _ hij)
    · rw [List.getElem?_set_ne hij] at hj
      exact .inr ((h j e' hj).resolve_left (by rw [hp]; simp))
  | @reload i e resource hp hi hload =>
    intro j e' hj
    by_cases hij : i = j
    · subst hij
      rw [List.getElem?_set_self (List.getElem?_eq_some_iff.mp hi).1, Option.some.injEq] at hj
      subst hj
      refine .inr fun file hf _ => ?_
      rw [← hload]
      exact congrArg _ hf.symm
    · rw [List.getElem?_set_ne hij] at hj
      refine .inr ((h j e' hj).resolve_left fun hpj => hij ?_)
      rw [hp] at hpj
      exact Phase.reloading.inj hpj
  | raise hp =>
    refine coherent_of_current fun e he => h.current (fun i => ?_) he
    obtain hp | ⟨_, hp⟩ := hp <;> simp [hp]
  | read hp => exact coherent_of_current fun e he => h.current (fun i => by rw [hp]; simp) he
  | insert hp hload =>
    refine coherent_of_current fun e he => ?_
    cases OrderedMap.mem_insert_iff.mp he with
    | inl heq =>
      subst heq
      intro file hf _
      rw [← hload]
      exact congrArg _ hf.symm
    | inr he => exact h.current (fun i => by rw [hp]; simp) he

/-- **One step**, whoever takes it. -/
theorem coherent_step (h : s.Coherent) (hguard : s.Noticeable input) (hs : s.step input = .ok t) :
    t.Coherent := by
  cases input with
  | write path file =>
    cases hs
    intro i e hi
    by_cases he : e.1 = path
    · refine (hguard i e hi he).imp_right fun hne file' hf ht => ?_
      simp only [he, Function.update_self, Option.some.injEq] at hf
      subst hf
      exact absurd ht.symm hne
    · refine (h i e hi).imp_right fun hcurrent file' hf => hcurrent file' ?_
      simpa only [Function.update_of_ne he] using hf
  | remove path =>
    cases hs
    intro i e hi
    refine (h i e hi).imp_right fun hcurrent file' hf => hcurrent file' ?_
    by_cases he : e.1 = path
    · simp [he] at hf
    · simpa only [Function.update_of_ne he] using hf
  | poll =>
    obtain ⟨hp, rfl⟩ := poll_cases hs
    exact coherent_of_current fun e he => h.current (fun i => by rw [hp]; simp) he
  | set path handler =>
    obtain ⟨hp, ⟨e, rfl⟩ | rfl⟩ := set_cases hs
    · exact h
    · exact coherent_of_current fun e he => h.current (fun i => by rw [hp]; simp) he
  | go => exact (go_cases hs).coherent h

theorem coherent_of_run {files : ResourcePath → Option (File γ)}
    (hr : Reaches step Noticeable (initial files) s) : s.Coherent :=
  hr.invariant Coherent (coherent_initial files) fun _ _ _ hI hguard hs =>
    coherent_step hI hguard hs

/-! ## Polls -/

/-- The thread finds another time stamp than the one recorded. -/
def stale (files : ResourcePath → Option (File γ)) (e : ResourcePath × ResourceTimeStamp γ ρ) : Bool :=
  (files e.1).map File.timestamp ≠ some e.2.timestamp

def staleCount (s : State γ ρ) : ℕ := s.resources.countP (stale s.files)

/-- Nobody touches a file. -/
def Quiet (_ : State γ ρ) : Input γ ρ → Prop
  | .write _ _ | .remove _ => False
  | _ => True

def isPoll : Input γ ρ → Bool
  | .poll => true
  | _ => false

/-- How often the thread has woken up. -/
def polls (log : List (Taken (State γ ρ) (Input γ ρ))) : ℕ := log.countP fun t => isPoll t.input

theorem stale_eq_false {files : ResourcePath → Option (File γ)}
    {e : ResourcePath × ResourceTimeStamp γ ρ} {file : File γ} (hf : files e.1 = some file)
    (ht : e.2.timestamp = file.timestamp) : stale files e = false := by
  simp [stale, hf, ht]

theorem stale_eq_true {files : ResourcePath → Option (File γ)}
    {e : ResourcePath × ResourceTimeStamp γ ρ} {file : File γ} (hf : files e.1 = some file)
    (ht : e.2.timestamp ≠ file.timestamp) : stale files e = true := by
  simp [stale, hf, Ne.symm ht]

/-- An entry of the map is replaced. -/
theorem countP_set_add {α : Type} {q : α → Bool} {l : List α} {i : ℕ} {a b : α}
    (h : l[i]? = some a) :
    (l.set i b).countP q + (if q a then 1 else 0) = l.countP q + if q b then 1 else 0 := by
  obtain ⟨hlt, rfl⟩ := List.getElem?_eq_some_iff.mp h
  rw [List.countP_set hlt]
  by_cases hq : q l[i] = true
  · have hpos : 0 < l.countP q := List.countP_pos_iff.mpr ⟨_, List.getElem_mem hlt, hq⟩
    simp only [hq, if_true]
    omega
  · simp [hq]

/-- **The progress** of `k` polls, after `n` resources have been stale: the holder of the mutex is done
with the entries before the iterator, or with the one resource that his poll reloads. -/
def Progress (n k : ℕ) (s : State γ ρ) : Prop :=
  match s.phase with
  | .looking i => 0 < k ∧ s.staleCount = n - (k - 1) ∧
      ∀ j < i, ∀ e, s.resources[j]? = some e → stale s.files e = false
  | .loading path _ timestamp => s.staleCount = n - k ∧
      (s.files path).map File.timestamp = some timestamp
  | _ => s.staleCount = n - k

theorem GoStep.progress {n k : ℕ} (hgo : GoStep s t) (h : Progress n k s) : Progress n k t := by
  unfold Progress at h
  cases hgo with
  | @finish i hp hi =>
    rw [hp] at h
    obtain ⟨hk, hcount, hfresh⟩ := h
    have hzero : s.staleCount = 0 := by
      refine List.countP_eq_zero.mpr fun e he => ?_
      obtain ⟨j, hj⟩ := List.mem_iff_getElem?.mp he
      have hlt := (List.getElem?_eq_some_iff.mp hj).1
      have hlen := List.getElem?_eq_none_iff.mp hi
      rw [hfresh j (by omega) e hj]
      exact Bool.false_ne_true
    show s.staleCount = n - k
    omega
  | @next i e file hp hi hf ht =>
    rw [hp] at h
    obtain ⟨hk, hcount, hfresh⟩ := h
    refine ⟨hk, hcount, fun j hj e' he' => ?_⟩
    by_cases hji : j = i
    · subst hji
      obtain rfl : e = e' := Option.some.inj (hi.symm.trans he')
      exact stale_eq_false hf ht
    · exact hfresh j (by omega) e' he'
  | @stamp i e file hp hi hf ht =>
    rw [hp] at h
    obtain ⟨hk, hcount, -⟩ := h
    have hset := countP_set_add (q := stale s.files)
      (b := (e.1, { e.2 with timestamp := file.timestamp })) hi
    have hfresh : stale s.files (e.1, { e.2 with timestamp := file.timestamp }) = false :=
      stale_eq_false (e := (e.1, { e.2 with timestamp := file.timestamp })) hf rfl
    rw [stale_eq_true hf ht, hfresh, if_pos rfl, if_neg Bool.false_ne_true] at hset
    show (s.resources.set i _).countP (stale s.files) = n - k
    unfold staleCount at hcount
    omega
  | @reload i e resource hp hi hload =>
    rw [hp] at h
    have hset := countP_set_add (q := stale s.files) (b := (e.1, { e.2 with resource := resource })) hi
    show (s.resources.set i _).countP (stale s.files) = n - k
    exact (Nat.add_right_cancel hset).trans h
  | raise hp =>
    obtain hp | ⟨timestamp, hp⟩ := hp
    · rw [hp] at h
      exact h
    · rw [hp] at h
      exact h.1
  | read hp hf =>
    rw [hp] at h
    exact ⟨h, by rw [hf]; rfl⟩
  | @insert path handler timestamp resource hp hload =>
    rw [hp] at h
    show (OrderedMap.insert _ _ _ _).countP (stale s.files) = n - k
    rw [OrderedMap.countP_insert, ← h.1, staleCount]
    have hfresh : stale s.files (path, ⟨timestamp, resource, handler⟩) = false := by
      simp [stale, h.2]
    rw [hfresh]
    rfl

/-- **One step** of a run that is quiet. -/
theorem progress_step {n k : ℕ} (h : Progress n k s) (hquiet : s.Quiet input)
    (hs : s.step input = .ok t) : Progress n (k + if isPoll input then 1 else 0) t := by
  cases input with
  | write path file => exact hquiet.elim
  | remove path => exact hquiet.elim
  | poll =>
    obtain ⟨hp, rfl⟩ := poll_cases hs
    unfold Progress at h
    rw [hp] at h
    exact ⟨Nat.succ_pos k, h, fun j hj => absurd hj (Nat.not_lt_zero j)⟩
  | set path handler =>
    obtain ⟨hp, ⟨e, rfl⟩ | rfl⟩ := set_cases hs
    · exact h
    · unfold Progress at h
      rw [hp] at h
      exact h
  | go => exact (go_cases hs).progress h

/-- The paths that have a handler keep it. -/
def Keeps (s t : State γ ρ) : Prop :=
  ∀ path handler, (∃ e ∈ s.resources, e.1 = path ∧ e.2.handler = handler) →
    ∃ e ∈ t.resources, e.1 = path ∧ e.2.handler = handler

theorem keeps_of_set {i : ℕ} {e e' : ResourcePath × ResourceTimeStamp γ ρ}
    (hi : s.resources[i]? = some e) (hpath : e'.1 = e.1) (hhandler : e'.2.handler = e.2.handler)
    (ht : t.resources = s.resources.set i e') : Keeps s t := by
  rintro path handler ⟨f, hf, rfl, rfl⟩
  rw [ht]
  obtain ⟨j, hj⟩ := List.mem_iff_getElem?.mp hf
  by_cases hij : i = j
  · subst hij
    obtain rfl : e = f := Option.some.inj (hi.symm.trans hj)
    exact ⟨e', List.mem_set (List.getElem?_eq_some_iff.mp hi).1 e', hpath, hhandler⟩
  · exact ⟨f, List.mem_of_getElem? ((List.getElem?_set_ne hij).trans hj), rfl, rfl⟩

theorem keeps_step (hs : s.step input = .ok t) : Keeps s t := by
  have hsame : ∀ {u : State γ ρ}, u.resources = s.resources → Keeps s u := by
    intro u hu path handler h
    rwa [hu]
  cases input with
  | write | remove =>
    cases hs
    exact hsame rfl
  | poll =>
    obtain ⟨-, rfl⟩ := poll_cases hs
    exact hsame rfl
  | set path handler =>
    obtain ⟨-, ⟨e, rfl⟩ | rfl⟩ := set_cases hs
    · exact hsame rfl
    · exact hsame rfl
  | go =>
    cases go_cases hs with
    | finish | next | raise | read => exact hsame rfl
    | stamp hp hi =>
      refine keeps_of_set hi ?_ ?_ rfl
      · rfl
      · rfl
    | reload hp hi =>
      refine keeps_of_set hi ?_ ?_ rfl
      · rfl
      · rfl
    | insert hp hload =>
      rintro path handler ⟨e, he, rfl, rfl⟩
      exact ⟨e, OrderedMap.mem_insert_iff.mpr (.inr he), rfl, rfl⟩

/-! ## Polls end -/

/-- No file of a resource is missing, and no handler throws on one. -/
def Loads (s : State γ ρ) : Prop :=
  ∀ e ∈ s.resources, ∃ file resource,
    s.files e.1 = some file ∧ e.2.handler e.1 (some file) = .ok resource

/-- What the holder of the mutex has come to is there. -/
def Finds (s : State γ ρ) : Prop :=
  match s.phase with
  | .reloading i => i < s.resources.length
  | .loading path _ _ => ∃ file, s.files path = some file
  | _ => True

/-- How many steps the holder of the mutex still takes, at most. -/
def remaining (s : State γ ρ) : ℕ :=
  match s.phase with
  | .idle => 0
  | .looking i => s.resources.length - i + 2
  | .setting _ _ => 2
  | .reloading _ | .loading _ _ _ => 1

theorem Loads.set {i : ℕ} {e e' : ResourcePath × ResourceTimeStamp γ ρ} (h : s.Loads)
    (hi : s.resources[i]? = some e) (hpath : e'.1 = e.1) (hhandler : e'.2.handler = e.2.handler)
    (hfiles : t.files = s.files) (ht : t.resources = s.resources.set i e') : t.Loads := by
  intro f hf
  rw [ht] at hf
  rw [hfiles]
  rcases List.mem_or_eq_of_mem_set hf with hf | rfl
  · exact h f hf
  · rw [hpath, hhandler]
    exact h e (List.mem_of_getElem? hi)

theorem GoStep.loads (hgo : GoStep s t) (h : s.Loads) (hfinds : s.Finds) : t.Loads ∧ t.Finds := by
  cases hgo with
  | finish | next | raise => exact ⟨h, trivial⟩
  | read hp hf => exact ⟨h, _, hf⟩
  | stamp hp hi =>
    refine ⟨h.set hi ?_ ?_ rfl rfl, ?_⟩
    · rfl
    · rfl
    · show _ < (s.resources.set _ _).length
      rw [List.length_set]
      exact (List.getElem?_eq_some_iff.mp hi).1
  | reload hp hi =>
    refine ⟨h.set hi ?_ ?_ rfl rfl, trivial⟩
    · rfl
    · rfl
  | @insert path handler timestamp resource hp hload =>
    refine ⟨fun e he => ?_, trivial⟩
    cases OrderedMap.mem_insert_iff.mp he with
    | inl heq =>
      unfold Finds at hfinds
      rw [hp] at hfinds
      obtain ⟨file, hf⟩ := hfinds
      subst heq
      exact ⟨file, resource, hf, hf ▸ hload⟩
    | inr he => exact h e he

/-- **One step** of a run that is quiet. -/
theorem loads_step (h : s.Loads) (hfinds : s.Finds) (hquiet : s.Quiet input)
    (hs : s.step input = .ok t) : t.Loads ∧ t.Finds := by
  cases input with
  | write path file => exact hquiet.elim
  | remove path => exact hquiet.elim
  | poll =>
    obtain ⟨-, rfl⟩ := poll_cases hs
    exact ⟨h, trivial⟩
  | set path handler =>
    obtain ⟨-, ⟨e, rfl⟩ | rfl⟩ := set_cases hs
    · exact ⟨h, hfinds⟩
    · exact ⟨h, trivial⟩
  | go => exact (go_cases hs).loads h hfinds

/-- **The holder of the mutex goes on**, and has fewer steps to take. -/
theorem exists_go (h : s.Loads) (hfinds : s.Finds) (hphase : s.phase ≠ .idle) :
    ∃ t, s.go = .ok t ∧ t.remaining < s.remaining := by
  unfold Finds at hfinds
  unfold go
  cases hp : s.phase with
  | idle => exact absurd hp hphase
  | looking i =>
    have hremaining : s.remaining = s.resources.length - i + 2 := by rw [remaining, hp]
    simp only
    cases hi : s.resources[i]? with
    | none => exact ⟨_, rfl, by rw [hremaining]; exact Nat.succ_pos _⟩
    | some e =>
      obtain ⟨file, resource, hf, -⟩ := h e (List.mem_of_getElem? hi)
      have hlt := (List.getElem?_eq_some_iff.mp hi).1
      simp only [lastWriteTime_eq_ok.mpr ⟨file, hf, rfl⟩]
      split
      · refine ⟨_, rfl, ?_⟩
        show 1 < _
        omega
      · refine ⟨_, rfl, ?_⟩
        show s.resources.length - (i + 1) + 2 < _
        omega
  | reloading i =>
    have hremaining : s.remaining = 1 := by rw [remaining, hp]
    rw [hp] at hfinds
    obtain ⟨file, resource, hf, hload⟩ := h _ (List.getElem_mem hfinds)
    simp only [List.getElem?_eq_getElem hfinds, hf, hload]
    exact ⟨_, rfl, by rw [hremaining]; exact Nat.one_pos⟩
  | setting path handler =>
    have hremaining : s.remaining = 2 := by rw [remaining, hp]
    simp only
    split
    · exact ⟨_, rfl, by rw [hremaining]; exact Nat.two_pos⟩
    · exact ⟨_, rfl, by rw [hremaining]; exact Nat.one_lt_two⟩
  | loading path handler timestamp =>
    have hremaining : s.remaining = 1 := by rw [remaining, hp]
    simp only
    split
    · exact ⟨_, rfl, by rw [hremaining]; exact Nat.one_pos⟩
    · exact ⟨_, rfl, by rw [hremaining]; exact Nat.one_pos⟩

/-- The holder of the mutex goes on. -/
def Goes (_ : State γ ρ) : Input γ ρ → Prop
  | .go => True
  | _ => False

/-- The holder of the mutex comes to its end. -/
theorem exists_idle (h : s.Loads) (hfinds : s.Finds) :
    ∃ u, Reaches step Goes s u ∧ u.phase = .idle := by
  induction hn : s.remaining using Nat.strong_induction_on generalizing s with
  | _ n ih =>
    by_cases hphase : s.phase = .idle
    · exact ⟨s, .refl, hphase⟩
    · obtain ⟨t, hgo, hlt⟩ := exists_go h hfinds hphase
      obtain ⟨ht, htfinds⟩ := (go_cases hgo).loads h hfinds
      obtain ⟨u, hu, hidle⟩ := ih t.remaining (hn ▸ hlt) ht htfinds rfl
      exact ⟨u, .head ⟨.go, trivial, hgo⟩ hu, hidle⟩

/-- No exception leaves the thread. -/
theorem step_ne_terminated (h : s.Loads) (hfinds : s.Finds) (e : Exception) :
    s.step input ≠ .error (.terminated e) := by
  cases input with
  | write | remove => simp [step]
  | poll | set =>
    simp only [step]
    split <;> simp
  | go =>
    show s.go ≠ _
    by_cases hphase : s.phase = .idle
    · simp [go, hphase]
    · obtain ⟨t, hgo, -⟩ := exists_go h hfinds hphase
      simp [hgo]

/-! ## What polling is for -/

/-- What holds once no file changes any more. -/
structure Refreshed (s : State γ ρ) (n : ℕ) (t : State γ ρ) : Prop where
  survives : ∀ input e, t.step input ≠ .error (.terminated e)
  ends : ∃ u, Reaches step Goes t u ∧ u.phase = .idle
  keeps : Keeps s t
  counts : t.phase = .idle → t.staleCount = s.staleCount - n
  fresh : t.phase = .idle → s.staleCount ≤ n →
    ∀ e ∈ t.resources, e.2.handler e.1 (t.files e.1) = .ok e.2.resource

/-- **Polling.** Files are written and removed, handlers are set, and the thread polls, in any order, no
file being written with the time stamp that is recorded of it. If from then on the files are left alone,
none of them missing and no handler throwing on one, no exception leaves the thread and every poll ends;
every poll reloads exactly one of the resources whose file has another time stamp, while there is one; and
once as many polls are done as there were such resources, each resource that has been set is what its
handler makes of its file as it is. -/
theorem polls_refresh {files : ResourcePath → Option (File γ)}
    {log : List (Taken (State γ ρ) (Input γ ρ))} (hr : Reaches step Noticeable (initial files) s)
    (hs : s.phase = .idle) (hloads : s.Loads) (hrun : LoggedRun step Quiet s log t) :
    Refreshed s (polls log) t := by
  have hmain : Progress s.staleCount (polls log) t ∧ Keeps s t := by
    induction hrun with
    | start =>
      refine ⟨?_, fun _ _ h => h⟩
      unfold Progress
      rw [hs]
      rfl
    | next hrun hquiet hstep ih =>
      refine ⟨?_, fun path handler h => keeps_step hstep path handler (ih.2 path handler h)⟩
      rw [polls, List.countP_append, List.countP_singleton]
      exact progress_step ih.1 hquiet hstep
  obtain ⟨hprogress, hkeeps⟩ := hmain
  have hfinds : s.Finds := by
    unfold Finds
    rw [hs]
    trivial
  obtain ⟨ht, htfinds⟩ : t.Loads ∧ t.Finds :=
    hrun.reaches.invariant (fun u => u.Loads ∧ u.Finds) ⟨hloads, hfinds⟩
      fun _ _ _ hI hquiet hstep => loads_step hI.1 hI.2 hquiet hstep
  have hcoherent : t.Coherent := by
    refine hrun.reaches.invariant Coherent (coherent_of_run hr) fun u i v hI hquiet hstep => ?_
    refine coherent_step hI ?_ hstep
    cases i with
    | write => exact hquiet.elim
    | _ => trivial
  have hcount : t.phase = .idle → t.staleCount = s.staleCount - polls log := fun hidle => by
    unfold Progress at hprogress
    rw [hidle] at hprogress
    exact hprogress
  refine ⟨fun input => step_ne_terminated ht htfinds, exists_idle ht htfinds, hkeeps, hcount,
    fun hidle hpolls e he => ?_⟩
  have hzero : t.staleCount = 0 := by
    rw [hcount hidle]
    omega
  have hfresh := List.countP_eq_zero.mp hzero e he
  simp only [stale, decide_eq_true_eq, not_not] at hfresh
  obtain ⟨file, hf, hts⟩ := Option.map_eq_some_iff.mp hfresh
  rw [hf]
  exact hcoherent.current (fun i => by rw [hidle]; simp) he file hf hts

theorem quiet_poll (s : State γ ρ) : s.Quiet .poll := trivial

theorem quiet_go (s : State γ ρ) : s.Quiet .go := trivial

/-- A text that has been loaded. -/
def loadedText : State String String where
  files := Function.update (fun _ => none) "a" (some ⟨1, "old"⟩)
  resources := [("a", ⟨1, "old", textResourceHandler⟩)]
  phase := .idle
  raised := none

theorem loadedText_noticeable : loadedText.Noticeable (.write "a" ⟨2, "new"⟩) := by
  intro i e hi _
  cases i with
  | zero =>
    cases hi
    exact .inr (by decide)
  | succ i => cases hi

/-- It is written again, and a poll finds it. -/
theorem polls_refresh_text : ∃ t : State String String, t.files "a" = some ⟨2, "new"⟩ ∧
    ∃ e ∈ t.resources, e.1 = "a" ∧ e.2.resource = "new" := by
  have hset : Reaches step Noticeable (initial loadedText.files) loadedText :=
    ((Steps.snoc .refl (i := .set "a" textResourceHandler) trivial rfl).snoc (i := .go) trivial rfl).snoc
      (i := .go) trivial rfl
  have hr := hset.snoc loadedText_noticeable rfl
  have hloads : ({ loadedText with
      files := Function.update loadedText.files "a" (some ⟨2, "new"⟩) } : State String String).Loads :=
    fun e he => by
      obtain rfl := List.mem_singleton.mp he
      exact ⟨⟨2, "new"⟩, "new", rfl, rfl⟩
  have hrefreshed := polls_refresh hr rfl hloads
    (((LoggedRun.start.next (quiet_poll _) rfl).next (quiet_go _) rfl).next (quiet_go _) rfl)
  obtain ⟨e, he, hpath, hhandler⟩ :=
    hrefreshed.keeps "a" textResourceHandler ⟨_, List.mem_singleton_self _, rfl, rfl⟩
  have hload := hrefreshed.fresh rfl (by decide +kernel) e he
  rw [hpath, hhandler] at hload
  exact ⟨_, rfl, e, he, hpath, (Except.ok.inj hload).symm⟩

end State
end EgLang.Resources
