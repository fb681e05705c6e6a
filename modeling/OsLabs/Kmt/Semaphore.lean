import Mathlib.Data.List.Perm.Subperm
import OsLabs.Kmt.Scheduler

/-!
# Semaphores neither lose nor invent a wake-up

The queues are lists of tasks, the oldest last. The sleep flag, the count, the
number of waiters and the queue change at different times and by different
parties; the invariant ties them to the phase in which each task is.
-/

namespace OsLabs.Kmt
open Function

variable {Cpu Sem Ctx : Type} [DecidableEq Cpu] [DecidableEq Sem]
  {k k' : Kernel Cpu Sem Ctx} {c : Cpu} {s : Sem} {t : TaskPtr Cpu} {context : Ctx} {tasknode : Nat}
  {w : Sem → List (TaskPtr Cpu)}

/-! ### The queues as lists of tasks -/

/-- The tasks in the queue of each semaphore are those of `w`; no two queues share a node. -/
def Queues (k : Kernel Cpu Sem Ctx) (w : Sem → List (TaskPtr Cpu)) : Prop :=
  ∃ q : Sem → List Nat, (∀ s, Queue k.node (k.sem s).pcb (q s)) ∧ (∀ s, ∀ x ∈ q s, x ∈ k.nodes) ∧
    (∀ s s' x, x ∈ q s → x ∈ q s' → s = s') ∧ ∀ s, (q s).map (fun x => (k.node x).task) = w s

namespace Queues

omit [DecidableEq Cpu] [DecidableEq Sem] in
theorem congr (Q : Queues k w) (node : k'.node = k.node) (nodes : k'.nodes = k.nodes)
    (pcb : ∀ s, (k'.sem s).pcb = (k.sem s).pcb) : Queues k' w := by
  obtain ⟨q, queue, alloc, apart, tasks⟩ := Q
  refine ⟨q, fun s => ?_, fun s => ?_, apart, fun s => ?_⟩
  · rw [node, pcb]; exact queue s
  · rw [nodes]; exact alloc s
  · rw [node]; exact tasks s

omit [DecidableEq Cpu] in
theorem add (Q : Queues k w) (alloc : tasknode ≠ 0 ∧ tasknode ∉ k.nodes) (s : Sem) (t : TaskPtr Cpu) :
    ∃ node, linkHead k.node (k.sem s).pcb tasknode t = some (node, tasknode) ∧
      ∀ k' : Kernel Cpu Sem Ctx, k'.node = node → k'.nodes = tasknode :: k.nodes →
        (∀ s', (k'.sem s').pcb = if s' = s then tasknode else (k.sem s').pcb) →
        Queues k' (update w s (t :: w s)) := by
  obtain ⟨q, queue, inNodes, apart, tasks⟩ := Q
  have fresh (s' : Sem) : tasknode ∉ q s' := fun h => alloc.2 (inNodes s' _ h)
  obtain ⟨node, linked, queue', task, same, other⟩ := @Queue.linkHead_eq _ _ _ _ _ t (queue s) alloc.1 (fresh s)
  refine ⟨node, linked, fun k' nodeEq nodesEq pcbEq => ⟨update q s (tasknode :: q s), ?_, ?_, ?_, ?_⟩⟩
  · intro s'
    rw [pcbEq, nodeEq, update_apply]
    split
    · exact queue'
    · rename_i ne
      exact (queue s').congr fun x hx => other x (by rintro rfl; exact fresh s' hx) fun h => ne (apart _ _ x hx h)
  · intro s' x hx
    rw [nodesEq]
    rw [update_apply] at hx
    split at hx
    · rcases List.mem_cons.mp hx with rfl | hx
      · exact List.mem_cons_self
      · exact List.mem_cons_of_mem _ (inNodes s x hx)
    · exact List.mem_cons_of_mem _ (inNodes s' x hx)
  · intro s₁ s₂ x h₁ h₂
    rw [update_apply] at h₁ h₂
    split at h₁ <;> split at h₂
    · rename_i e₁ e₂; exact e₁.trans e₂.symm
    · rename_i e₁ _
      rcases List.mem_cons.mp h₁ with rfl | h₁
      · exact absurd h₂ (fresh s₂)
      · exact e₁.trans (apart _ _ x h₁ h₂)
    · rename_i _ e₂
      rcases List.mem_cons.mp h₂ with rfl | h₂
      · exact absurd h₁ (fresh s₁)
      · exact (apart _ _ x h₁ h₂).trans e₂.symm
    · exact apart _ _ x h₁ h₂
  · intro s'
    rw [nodeEq, update_apply, update_apply]
    split
    · rw [List.map_cons, task, ← tasks s]
      exact congrArg _ (List.map_congr_left fun x hx => same x hx)
    · rename_i ne
      rw [← tasks s']
      apply List.map_congr_left
      intro x hx
      rw [other x (by rintro rfl; exact fresh s' hx) fun h => ne (apart _ _ x hx h)]

omit [DecidableEq Cpu] in
theorem delete {l : List (TaskPtr Cpu)} (Q : Queues k w) (last : w s = l ++ [t]) :
    ∃ ptr node pcb, lastNode k.node k.nodes.length (k.sem s).pcb = some ptr ∧
      unlinkLast k.node (k.sem s).pcb ptr = some (node, pcb) ∧ (k.node ptr).task = t ∧
      ∀ k' : Kernel Cpu Sem Ctx, k'.node = node → k'.nodes = k.nodes.erase ptr →
        (∀ s', (k'.sem s').pcb = if s' = s then pcb else (k.sem s').pcb) →
        Queues k' (update w s l) := by
  obtain ⟨q, queue, inNodes, apart, tasks⟩ := Q
  obtain ⟨ql, ptr, qs, rest, task⟩ : ∃ ql ptr, q s = ql ++ [ptr] ∧
      ql.map (fun x => (k.node x).task) = l ∧ (k.node ptr).task = t := by
    have eq := (tasks s).trans last
    obtain ⟨ql, qr, qs, rest, single⟩ := List.map_eq_append_iff.mp eq
    obtain ⟨ptr, rfl, task⟩ := List.map_eq_singleton_iff.mp single
    exact ⟨ql, ptr, qs, rest, task⟩
  have Qs := queue s
  rw [qs] at Qs
  have enough : (ql ++ [ptr]).length ≤ k.nodes.length :=
    (List.subperm_of_subset Qs.nodup fun x hx => inNodes s x (qs ▸ hx)).length_le
  have found : lastNode k.node k.nodes.length (k.sem s).pcb = some ptr := by
    rw [Qs.head]
    exact Queue.lastNode_eq Qs.linked (Qs.last ptr (by simp)) Qs.nonnull (by simp at enough; omega)
  obtain ⟨node, pcb, unlinked, queue', same, other⟩ := Qs.unlinkLast_eq
  refine ⟨ptr, node, pcb, found, unlinked, task, fun k' nodeEq nodesEq pcbEq => ⟨update q s ql, ?_, ?_, ?_, ?_⟩⟩
  · intro s'
    rw [pcbEq, nodeEq, update_apply]
    split
    · exact queue'
    · rename_i ne
      exact (queue s').congr fun x hx => other x fun h => ne (apart _ _ x hx (qs ▸ List.mem_append_left _ h))
  · have ptrLast : ptr ∉ ql := fun h => (List.nodup_append.mp Qs.nodup).2.2 ptr h ptr (by simp) rfl
    intro s' x hx
    rw [nodesEq]
    rw [update_apply] at hx
    split at hx
    · exact (List.mem_erase_of_ne (by rintro rfl; exact ptrLast hx)).mpr (inNodes s x (qs ▸ List.mem_append_left _ hx))
    · rename_i ne
      refine (List.mem_erase_of_ne ?_).mpr (inNodes s' x hx)
      rintro rfl
      exact ne (apart _ _ x hx (qs ▸ by simp))
  · intro s₁ s₂ x h₁ h₂
    have sub (s' : Sem) (h : x ∈ update q s ql s') : x ∈ q s' := by
      rw [update_apply] at h
      split at h
      · rename_i e; rw [e, qs]; exact List.mem_append_left _ h
      · exact h
    exact apart _ _ x (sub _ h₁) (sub _ h₂)
  · intro s'
    rw [nodeEq, update_apply, update_apply]
    simp only [same]
    split
    · exact rest
    · exact tasks s'

end Queues

/-! ### The locked sections -/

def Counted (k : Kernel Cpu Sem Ctx) (w : Sem → List (TaskPtr Cpu)) : Prop := ∀ s, (k.sem s).cntTasks = (w s).length

/-- `sem_wait` passes, or appends the running task to the queue and sets its sleep flag. -/
theorem semWait_section {blocked : Bool} (Q : Queues k w) (cnt : Counted k w)
    (alloc : tasknode ≠ 0 ∧ tasknode ∉ k.nodes) (h : semWait k c s tasknode = some (k', blocked)) :
    (blocked = false ∧ Queues k' w ∧ Counted k' w ∧ k'.task = k.task) ∨
      (blocked = true ∧ ∃ t, k.cputask c = some t ∧ Queues k' (update w s (t :: w s)) ∧
        Counted k' (update w s (t :: w s)) ∧ ∀ u, (k'.task u).sleep = if u = t then 1 else (k.task u).sleep) := by
  rcases semWait_cases h with ⟨pass, nonneg, rfl⟩ | ⟨block, neg, t, node, pcb, current, linked, rfl⟩
  · refine .inl ⟨pass, Q.congr rfl rfl fun s' => ?_, fun s' => ?_, rfl⟩ <;> by_cases ss : s' = s
    · subst ss; simp [Kernel.setSem]
    · simp [Kernel.setSem, ss]
    · subst ss; simpa [Kernel.setSem] using cnt s'
    · simpa [Kernel.setSem, ss] using cnt s'
  · obtain ⟨node', linked', after⟩ := Q.add alloc s t
    obtain ⟨rfl, rfl⟩ := Prod.mk.inj (Option.some.inj (linked.symm.trans linked'))
    refine .inr ⟨block, t, current, after _ rfl rfl fun s' => ?_, fun s' => ?_, fun u => ?_⟩
    · by_cases ss : s' = s
      · subst ss; simp
      · simp [ss]
    · by_cases ss : s' = s
      · subst ss; simp [cnt s']
      · simpa [ss, Kernel.setTask] using cnt s'
    · by_cases ut : u = t <;> simp [ut]

/-- `sem_signal` only counts, or takes the oldest waiter out and clears its sleep flag. -/
theorem semSignal_section (Q : Queues k w) (cnt : Counted k w) (h : semSignal k s = some k') :
    (woken k s = none ∧ Queues k' w ∧ Counted k' w ∧ k'.task = k.task) ∨
      ∃ t l, woken k s = some t ∧ w s = l ++ [t] ∧ Queues k' (update w s l) ∧ Counted k' (update w s l) ∧
        ∀ u, (k'.task u).sleep = if u = t then 0 else (k.task u).sleep := by
  rcases semSignal_cases h with ⟨none, rfl⟩ | ⟨some, ptr, node, pcb, found, unlinked, rfl⟩
  · refine .inl ⟨if_neg (by omega), Q.congr rfl rfl fun s' => ?_, fun s' => ?_, rfl⟩ <;> by_cases ss : s' = s
    · subst ss; simp [Kernel.setSem]
    · simp [Kernel.setSem, ss]
    · subst ss; simpa [Kernel.setSem] using cnt s'
    · simpa [Kernel.setSem, ss] using cnt s'
  · have nonempty : w s ≠ [] := by
      intro empty
      have := cnt s
      rw [empty, List.length_nil] at this
      omega
    obtain ⟨l, t, last⟩ := (List.eq_nil_or_concat' (w s)).resolve_left nonempty
    obtain ⟨ptr', node', pcb', found', unlinked', task, after⟩ := Q.delete last
    obtain rfl := Option.some.inj (found.symm.trans found')
    obtain ⟨rfl, rfl⟩ := Prod.mk.inj (Option.some.inj (unlinked.symm.trans unlinked'))
    refine .inr ⟨t, l, ?_, last, after _ rfl rfl fun s' => ?_, fun s' => ?_, fun u => ?_⟩
    · simp [woken, some, found, task]
    · by_cases ss : s' = s
      · subst ss; simp
      · simp [ss]
    · by_cases ss : s' = s
      · subst ss; simp [cnt s', last]
      · simpa [ss, Kernel.setTask] using cnt s'
    · by_cases ut : u = t <;> simp [ut, task]

/-! ### The invariant -/

/-- The task called `_wait` on `s` and blocked, and has not returned. -/
def Phase.blockedOn (p : Phase Sem) (s : Sem) : Prop := p = .waiting s ∨ p = .yielded s

omit [DecidableEq Sem] in
@[simp] theorem Phase.yield_blockedOn (p : Phase Sem) (s : Sem) : p.yield.blockedOn s ↔ p.blockedOn s := by
  cases p <;> simp [yield, blockedOn]

omit [DecidableEq Sem] in
@[simp] theorem Phase.yield_sem (p : Phase Sem) : p.yield.sem = p.sem := by
  cases p <;> rfl

omit [DecidableEq Sem] in
theorem Phase.blockedOn.sem {p : Phase Sem} (h : p.blockedOn s) : p.sem = some s := by
  rcases h with rfl | rfl <;> rfl

/-- The queues `w` are those of the tasks that blocked and were not signalled since. -/
structure SemInv (st : State Cpu Sem Ctx) (w : Sem → List (TaskPtr Cpu)) : Prop where
  queues : Queues st.kernel w
  counted : Counted st.kernel w
  nodup : ∀ s, (w s).Nodup
  asleep : ∀ s, ∀ t ∈ w s, (st.kernel.task t).sleep = 1
  awake : ∀ t, st.created t = true → (∀ s, t ∉ w s) → (st.kernel.task t).sleep = 0
  blocked : ∀ s t, t ∈ w s ↔ (st.phase t).blockedOn s ∧ st.signalled t = false
  running : ∀ c t s, st.kernel.cputask c = some t → st.lockOs ≠ some c → st.phase t = .yielded s →
    st.signalled t = true
  created : ∀ t, (st.phase t).sem ≠ none → ∃ n, t = .task n ∧ st.created t = true
  called : ∀ s, (st.calls s).Nodup
  inCall : ∀ s t, t ∈ st.calls s ↔ (st.phase t).sem = some s
  returned : ∀ s, st.returns s + (st.calls s).length = st.waits s

namespace SemInv

variable {v : Sem → Int} {st : State Cpu Sem Ctx}

omit [DecidableEq Cpu] [DecidableEq Sem] in
theorem booted (h : Booted v st) : SemInv st fun _ => [] where
  queues := ⟨fun _ => [], fun s => by rw [h.sem]; exact Queue.nil _, by simp, by simp, by simp⟩
  counted s := by rw [h.sem]; rfl
  nodup := by simp
  asleep := by simp
  awake t created := by rw [h.created] at created; cases created
  blocked s t := by simp [h.phase, Phase.blockedOn]
  running c t s current := by rw [h.cputask] at current; cases current
  created t busy := absurd (by rw [h.phase]; rfl) busy
  called s := by simp [h.calls]
  inCall s t := by simp [h.calls, h.phase, Phase.sem]
  returned s := by simp [h.returns, h.calls, h.waits]

omit [DecidableEq Sem] in
theorem save {ev : Event} (I : SemInv st w) (J : SchedInv st) (unlocked : st.lockOs = none)
    (saved : Saved st.kernel k c context) :
    SemInv { st with
      kernel := k
      lockOs := some c
      lastTrap := update st.lastTrap (st.resumed c) context
      phase := if ev = .yield then update st.phase (st.resumed c) (st.phase (st.resumed c)).yield
        else st.phase } w := by
  have phase (t : TaskPtr Cpu) : (if ev = .yield then update st.phase (st.resumed c) (st.phase (st.resumed c)).yield
      else st.phase) t = st.phase t ∨ (t = st.resumed c ∧ (if ev = .yield then
      update st.phase (st.resumed c) (st.phase (st.resumed c)).yield else st.phase) t = (st.phase t).yield) := by
    split
    · by_cases h : t = st.resumed c
      · subst h; exact .inr ⟨rfl, update_self ..⟩
      · exact .inl (update_of_ne h ..)
    · exact .inl rfl
  have sem (t : TaskPtr Cpu) : ((if ev = .yield then update st.phase (st.resumed c) (st.phase (st.resumed c)).yield
      else st.phase) t).sem = (st.phase t).sem := by
    rcases phase t with h | ⟨-, h⟩ <;> simp [h]
  exact {
    queues := I.queues.congr saved.node saved.nodes fun s => by rw [saved.sem]
    counted s := by simp only [saved.sem]; exact I.counted s
    nodup := I.nodup
    asleep s t ht := by rw [saved.sleep]; exact I.asleep s t ht
    awake t created out := by rw [saved.sleep]; exact I.awake t created out
    blocked s t := by
      rw [I.blocked]
      rcases phase t with h | ⟨-, h⟩ <;> simp [h]
    running d t s current outside yielded := by
      have dc : d ≠ c := by rintro rfl; exact outside rfl
      simp only [saved.cputask] at current
      rcases phase t with h | ⟨rfl, h⟩
      · exact I.running d t s current (by simp [unlocked]) (h ▸ yielded)
      · -- the task that yields runs on no other CPU
        refine absurd ?_ dc
        rw [J.resumed] at current
        cases mine : st.kernel.cputask c with
        | none => rw [mine] at current; exact J.default d c (.inl current)
        | some t => rw [mine] at current; exact J.unique d c t (.inl current) (.inl mine)
    created t ht := I.created t (by rwa [sem] at ht)
    called := I.called
    inCall s t := by rw [sem]; exact I.inCall s t
    returned := I.returned }

omit [DecidableEq Sem] in
theorem switch (I : SemInv st w) (held : st.lockOs = some c)
    (free : t = .cpudefault c ∨ (∃ i, st.kernel.tasks i = some t) ∧ (st.kernel.task t).run = 0 ∧
      (st.kernel.task t).sleep = 0) :
    SemInv { st with
      kernel := st.kernel.dispatch c t, lockOs := none, resumed := update st.resumed c t } w := by
  have sleep (u : TaskPtr Cpu) : ((st.kernel.dispatch c t).task u).sleep = (st.kernel.task u).sleep := by
    by_cases ut : u = t <;> simp [Kernel.dispatch, ut]
  exact {
    queues := I.queues.congr rfl rfl fun _ => rfl
    counted := I.counted
    nodup := I.nodup
    asleep s u hu := by rw [sleep]; exact I.asleep s u hu
    awake u created out := by rw [sleep]; exact I.awake u created out
    blocked := I.blocked
    running d u s current _ yielded := by
      simp only [Kernel.dispatch, update_apply] at current
      split at current
      · -- only an awake task is chosen, so a signal took it out of the queue
        obtain rfl := Option.some.inj current
        by_contra notSignalled
        have waiting : t ∈ w s := (I.blocked s t).mpr ⟨.inr yielded, by simpa using notSignalled⟩
        rcases free with rfl | ⟨-, -, awake⟩
        · obtain ⟨n, same, -⟩ := I.created (.cpudefault c) (by
            rw [((I.blocked s _).mp waiting).1.sem]; simp)
          cases same
        · rw [I.asleep s t waiting] at awake; cases awake
      · rename_i dc
        exact I.running d u s current (by rw [held]; exact fun h => dc (Option.some.inj h).symm) yielded
    created := I.created
    called := I.called
    inCall := I.inCall
    returned := I.returned }

omit [DecidableEq Sem] in
theorem create {n rand : Nat} (I : SemInv st w) (fresh : st.created (.task n) = false) :
    SemInv { st with
      kernel := kmtCreate st.kernel (.task n) context rand
      created := update st.created (.task n) true
      lastTrap := update st.lastTrap (.task n) context } w := by
  have task := kmtCreate_task st.kernel (.task n) context rand
  have known (t : TaskPtr Cpu) (h : (st.phase t).sem ≠ none) : t ≠ .task n := by
    rintro rfl
    obtain ⟨-, -, created⟩ := I.created _ h
    rw [created] at fresh; cases fresh
  have queued {s : Sem} {t : TaskPtr Cpu} (h : t ∈ w s) : t ≠ .task n :=
    known t (by rw [((I.blocked s t).mp h).1.sem]; simp)
  exact {
    queues := I.queues.congr rfl rfl fun _ => rfl
    counted := I.counted
    nodup := I.nodup
    asleep s t ht := by rw [(task t).2.1, if_neg (queued ht)]; exact I.asleep s t ht
    awake t created out := by
      rw [(task t).2.1]
      split
      · rfl
      · rename_i tn
        simp only [update_of_ne tn] at created
        exact I.awake t created out
    blocked := I.blocked
    running := I.running
    created t ht := by
      obtain ⟨m, eq, created⟩ := I.created t ht
      exact ⟨m, eq, by simp only [update_of_ne (known t ht)]; exact created⟩
    called := I.called
    inCall := I.inCall
    returned := I.returned }

/-- The task enters `sem_wait`: the calls and the counts are the same whether it blocks or not. -/
theorem enter {n : Nat} {blocked : Bool} {w' : Sem → List (TaskPtr Cpu)} (I : SemInv st w)
    (isCreated : st.created (.task n) = true) (idle : st.phase (.task n) = .code)
    (cputask : k.cputask = st.kernel.cputask)
    (queues : Queues k w') (counted : Counted k w') (nodup : ∀ s, (w' s).Nodup)
    (asleep : ∀ s, ∀ t ∈ w' s, (k.task t).sleep = 1)
    (awake : ∀ t, st.created t = true → (∀ s, t ∉ w' s) → (k.task t).sleep = 0)
    (blockedOn : ∀ s' t, t ∈ w' s' ↔
      (update st.phase (.task n) (if blocked then .waiting s else .passed s) t).blockedOn s' ∧
        update st.signalled (.task n) (!blocked) t = false) :
    SemInv { st with
      kernel := k
      phase := update st.phase (.task n) (if blocked then .waiting s else .passed s)
      signalled := update st.signalled (.task n) (!blocked)
      calls := update st.calls s (.task n :: st.calls s)
      waits := update st.waits s (st.waits s + 1) } w' := by
  have quiet (s' : Sem) : TaskPtr.task n ∉ st.calls s' := fun h => by
    have := (I.inCall s' _).mp h
    rw [idle] at this; cases this
  have yielded (s' : Sem) : (if blocked then Phase.waiting s else .passed s) ≠ .yielded s' := by cases blocked <;> simp
  have sem : (if blocked then Phase.waiting s else .passed s).sem = some s := by cases blocked <;> rfl
  refine ⟨queues, counted, nodup, asleep, awake, blockedOn, ?_, ?_, ?_, ?_, ?_⟩
  · intro d t s' runs outside after
    simp only [cputask] at runs
    by_cases tn : t = .task n
    · subst tn
      exact absurd (by simpa using after) (yielded s')
    · simp only [update_of_ne tn] at after ⊢
      exact I.running d t s' runs outside after
  · intro t busy
    by_cases tn : t = .task n
    · exact ⟨n, tn, tn ▸ isCreated⟩
    · simp only [update_of_ne tn] at busy
      exact I.created t busy
  · intro s'
    simp only [update_apply]
    split
    · exact List.nodup_cons.mpr ⟨quiet s, I.called s⟩
    · exact I.called s'
  · intro s' t
    by_cases tn : t = .task n <;> by_cases ss : s' = s
    · subst tn ss; simp [sem]
    · subst tn; simp [sem, ss, quiet, Ne.symm ss]
    · subst ss; simpa [tn] using I.inCall s' t
    · simpa [tn, ss] using I.inCall s' t
  · intro s'
    have := I.returned s'
    by_cases ss : s' = s
    · subst ss; simp only [update_self, List.length_cons]; omega
    · simpa [ss] using this

theorem wait {n : Nat} {blocked : Bool} (I : SemInv st w) (J : SchedInv st) (scheduled : st.resumed c = .task n)
    (idle : st.phase (.task n) = .code) (alloc : tasknode ≠ 0 ∧ tasknode ∉ st.kernel.nodes)
    (locked : semWait st.kernel c s tasknode = some (k, blocked)) :
    ∃ w', SemInv { st with
      kernel := k
      phase := update st.phase (.task n) (if blocked then .waiting s else .passed s)
      signalled := update st.signalled (.task n) (!blocked)
      calls := update st.calls s (.task n :: st.calls s)
      waits := update st.waits s (st.waits s + 1) } w' := by
  have current := J.cputask_of_resumed scheduled
  have isCreated : st.created (.task n) = true := J.created c n (.inl current)
  have cputask := (semWait_sameTasks locked).1.cputask
  have out (s' : Sem) : TaskPtr.task n ∉ w s' := fun h => by
    have := ((I.blocked s' _).mp h).1.sem
    rw [idle] at this; cases this
  rcases semWait_section I.queues I.counted alloc locked with
    ⟨rfl, queues, counted, task⟩ | ⟨rfl, t, runs, queues, counted, sleep⟩
  · refine ⟨w, I.enter isCreated idle cputask queues counted I.nodup (by rw [task]; exact I.asleep)
      (by rw [task]; exact I.awake) ?_⟩
    intro s' t
    by_cases tn : t = .task n
    · subst tn; simp [out]
    · simp [tn, I.blocked]
  · obtain rfl := Option.some.inj (current.symm.trans runs)
    refine ⟨update w s (.task n :: w s), I.enter isCreated idle cputask queues counted (fun s' => ?_)
      (fun s' t ht => ?_) (fun t created ht => ?_) ?_⟩
    · rw [update_apply]
      split
      · exact List.nodup_cons.mpr ⟨out s, I.nodup s⟩
      · exact I.nodup s'
    · rw [sleep]
      split
      · rfl
      · rename_i tn
        apply I.asleep s' t
        rw [update_apply] at ht
        split at ht
        · rename_i ss; rw [ss]; exact (List.mem_cons.mp ht).resolve_left tn
        · exact ht
    · have tn : t ≠ .task n := by rintro rfl; exact ht s (by simp)
      rw [sleep, if_neg tn]
      refine I.awake t created fun s' h => ht s' ?_
      rw [update_apply]
      split
      · rename_i ss; exact List.mem_cons_of_mem _ (ss ▸ h)
      · exact h
    · intro s' t
      by_cases tn : t = .task n <;> by_cases ss : s' = s
      · subst tn ss; simp [Phase.blockedOn]
      · subst tn; simp [Phase.blockedOn, ss, out, Ne.symm ss]
      · subst ss; simp [tn, I.blocked]
      · simp [tn, ss, I.blocked]

theorem leave (I : SemInv st w) (J : SchedInv st) (outside : st.lockOs ≠ some c)
    (done : st.phase (st.resumed c) = .passed s ∨ st.phase (st.resumed c) = .yielded s) :
    (st.phase (st.resumed c) = .yielded s → st.signalled (st.resumed c) = true) ∧
    SemInv { st with
      phase := update st.phase (st.resumed c) .code
      calls := update st.calls s ((st.calls s).erase (st.resumed c))
      returns := update st.returns s (st.returns s + 1) } w := by
  have sem : (st.phase (st.resumed c)).sem = some s := by rcases done with h | h <;> rw [h] <;> rfl
  have signalled (yielded : st.phase (st.resumed c) = .yielded s) : st.signalled (st.resumed c) = true := by
    obtain ⟨n, eq, -⟩ := I.created (st.resumed c) (by rw [sem]; simp)
    exact I.running c _ s (eq ▸ J.cputask_of_resumed eq) outside yielded
  have out (s' : Sem) : st.resumed c ∉ w s' := by
    intro h
    obtain ⟨blocked, notSignalled⟩ := (I.blocked s' _).mp h
    rcases done with passed | yielded
    · rw [passed] at blocked
      rcases blocked with h | h <;> cases h
    · rw [signalled yielded] at notSignalled; cases notSignalled
  have mem : st.resumed c ∈ st.calls s := (I.inCall s _).mpr sem
  refine ⟨signalled, I.queues, I.counted, I.nodup, I.asleep, I.awake, ?_, ?_, ?_, ?_, ?_, ?_⟩
  · intro s' t
    by_cases tr : t = st.resumed c
    · subst tr; simp [out, Phase.blockedOn]
    · simp [tr, I.blocked]
  · intro d t s' runs other yielded
    by_cases tr : t = st.resumed c
    · subst tr; simp at yielded
    · simp only [update_of_ne tr] at yielded
      exact I.running d t s' runs other yielded
  · intro t busy
    by_cases tr : t = st.resumed c
    · subst tr; simp [Phase.sem] at busy
    · simp only [update_of_ne tr] at busy
      exact I.created t busy
  · intro s'
    simp only [update_apply]
    split
    · exact (I.called s).erase _
    · exact I.called s'
  · intro s' t
    by_cases tr : t = st.resumed c <;> by_cases ss : s' = s
    · subst tr ss; simp [Phase.sem, (I.called s').not_mem_erase]
    · have : t ∉ st.calls s' := fun h => by
        have := (I.inCall s' t).mp h
        rw [tr, sem] at this
        exact ss (Option.some.inj this).symm
      subst tr; simp [Phase.sem, ss, this]
    · subst ss; simp [tr, List.mem_erase_of_ne tr, I.inCall]
    · simp [tr, ss, I.inCall]
  · intro s'
    have := I.returned s'
    by_cases ss : s' = s
    · subst ss
      have := List.length_erase_of_mem mem
      have := List.length_pos_of_mem mem
      simp only [update_self]
      omega
    · simpa [ss] using this

theorem signal (I : SemInv st w) (locked : semSignal st.kernel s = some k) :
    ∃ w', SemInv { st with
      kernel := k
      signalled := match woken st.kernel s with
        | some t => update st.signalled t true
        | none => st.signalled
      signals := update st.signals s (st.signals s + 1) } w' := by
  have cputask := (semSignal_sameTasks locked).1.cputask
  rcases semSignal_section I.queues I.counted locked with
    ⟨none, queues, counted, task⟩ | ⟨t, l, some, last, queues, counted, sleep⟩
  · rw [none]
    exact ⟨w, queues, counted, I.nodup, by rw [task]; exact I.asleep, by rw [task]; exact I.awake, I.blocked,
      fun d u s' runs => I.running d u s' (by rwa [cputask] at runs), I.created, I.called, I.inCall, I.returned⟩
  · rw [some]
    have member (s' : Sem) (u : TaskPtr Cpu) : u ∈ update w s l s' ↔ u ∈ w s' ∧ u ≠ t := by
      have nodup := I.nodup s
      rw [last] at nodup
      have tLast : t ∉ l := fun h => (List.nodup_append.mp nodup).2.2 t h t (by simp) rfl
      rw [update_apply]
      split
      · rename_i ss
        rw [ss, last]
        simp only [List.mem_append, List.mem_singleton]
        exact ⟨fun h => ⟨.inl h, by rintro rfl; exact tLast h⟩, fun ⟨h, ne⟩ => h.resolve_right ne⟩
      · rename_i ss
        refine ⟨fun h => ⟨h, ?_⟩, And.left⟩
        rintro rfl
        have here := ((I.blocked s' u).mp h).1.sem
        have there := ((I.blocked s u).mp (by rw [last]; simp)).1.sem
        exact ss (Option.some.inj (here.symm.trans there))
    refine ⟨update w s l, queues, counted, fun s' => ?_, fun s' u hu => ?_, fun u created hu => ?_, fun s' u => ?_,
      fun d u s' runs outside yielded => ?_, I.created, I.called, I.inCall, I.returned⟩
    · rw [update_apply]
      split
      · have := I.nodup s
        rw [last] at this
        exact (List.nodup_append.mp this).1
      · exact I.nodup s'
    · obtain ⟨hu, ut⟩ := (member s' u).mp hu
      rw [sleep, if_neg ut]
      exact I.asleep s' u hu
    · rw [sleep]
      split
      · rfl
      · rename_i ut
        exact I.awake u created fun s' h => hu s' ((member s' u).mpr ⟨h, ut⟩)
    · rw [member, I.blocked]
      by_cases ut : u = t <;> simp [ut]
    · simp only [cputask] at runs
      by_cases ut : u = t
      · simp [ut]
      · simp only [update_of_ne ut]
        exact I.running d u s' runs outside yielded

end SemInv

variable {v : Sem → Int} {st st' : State Cpu Sem Ctx} {l : Label Cpu Sem Ctx}

theorem step_sem (J : SchedInv st) (I : ∃ w, SemInv st w) (step : Step st l st') : ∃ w, SemInv st' w := by
  obtain ⟨w, I⟩ := I
  cases step with
  | error => exact ⟨w, I⟩
  | save unlocked proper saved => exact ⟨w, I.save J unlocked (kmtContextSave_saved saved)⟩
  | switch held chosen =>
    obtain ⟨rfl, -, free⟩ := kmtContextSwitch_cases chosen
    exact ⟨w, I.switch held free⟩
  | create fresh => exact ⟨w, I.create fresh⟩
  | wait outside scheduled idle alloc locked => exact I.wait J scheduled idle alloc locked
  | leave outside done => exact ⟨w, (I.leave J outside done).2⟩
  | signal locked => exact I.signal locked

theorem reachable_sem (run : (kernelMachine v).Reachable st) : ∃ w, SemInv st w :=
  run.induct_reachable (fun st => ∃ w, SemInv st w) (fun _ h => ⟨_, SemInv.booted h⟩)
    fun _ _ _ before I => step_sem (reachable_sched before) I

/-! ### The counts -/

/-- While the lock of `s` is free, the count is what the calls left of the value, and the tasks that wait are those it
lacks. -/
structure Level (v : Sem → Int) (st : State Cpu Sem Ctx) (s : Sem) : Prop where
  range : -intMax ≤ (st.kernel.sem s).count ∧ (st.kernel.sem s).count ≤ intMax
  total : (st.kernel.sem s).count = v s - st.waits s + st.signals s
  lacking : (st.kernel.sem s).cntTasks = max 0 (-(st.kernel.sem s).count)

def Label.counts : Label Cpu Sem Ctx → Option Sem
  | .wait _ s | .signal s => some s
  | _ => none

def Fits (st : State Cpu Sem Ctx) : Label Cpu Sem Ctx → Prop
  | .wait _ s => -intMax < (st.kernel.sem s).count
  | .signal s => (st.kernel.sem s).count < intMax
  | _ => True

omit [DecidableEq Cpu] [DecidableEq Sem] in
theorem Level.congr (L : Level v st s) (sem : st'.kernel.sem s = st.kernel.sem s) (waits : st'.waits s = st.waits s)
    (signals : st'.signals s = st.signals s) : Level v st' s := by
  obtain ⟨range, total, lacking⟩ := L
  refine ⟨?_, ?_, ?_⟩
  · rwa [sem]
  · rwa [sem, waits, signals]
  · rwa [sem]

omit [DecidableEq Cpu] [DecidableEq Sem] in
theorem Level.booted (h : Booted v st) (small : 0 ≤ v s ∧ v s ≤ intMax) : Level v st s := by
  refine ⟨?_, ?_, ?_⟩ <;> rw [h.sem]
  · simp only [intMax] at *
    omega
  · simp [h.waits, h.signals]
  · simp only
    omega

theorem step_level (L : Level v st s) (fits : l.counts = some s → Fits st l) (step : Step st l st') :
    Level v st' s := by
  cases step with
  | error => exact L
  | save unlocked proper saved => exact L.congr (congrFun (kmtContextSave_saved saved).sem s) rfl rfl
  | switch held chosen =>
    obtain ⟨rfl, -⟩ := kmtContextSwitch_cases chosen
    exact L.congr rfl rfl rfl
  | create fresh => exact L.congr rfl rfl rfl
  | leave outside done => exact L.congr rfl rfl rfl
  | @wait k c s' n tasknode blocked outside scheduled idle alloc locked =>
    by_cases ss : s = s'
    · subst ss
      have fits : -intMax < (st.kernel.sem s).count := fits rfl
      obtain ⟨range, total, lacking⟩ := L
      have same : int ((st.kernel.sem s).count - 1) = (st.kernel.sem s).count - 1 := by
        simp only [intMax] at *
        exact int_small (by omega) (by omega)
      rcases semWait_cases locked with ⟨-, sign, rfl⟩ | ⟨-, sign, t, node, pcb, -, -, rfl⟩ <;> rw [same] at sign <;>
        refine ⟨?_, ?_, ?_⟩ <;> simp only [Kernel.setSem, update_self, same] <;> push_cast <;> omega
    · refine L.congr ?_ (update_of_ne ss ..) rfl
      rcases semWait_cases locked with ⟨-, -, rfl⟩ | ⟨-, -, t, node, pcb, -, -, rfl⟩ <;> exact update_of_ne ss ..
  | @signal k s' locked =>
    by_cases ss : s = s'
    · subst ss
      have fits : (st.kernel.sem s).count < intMax := fits rfl
      obtain ⟨range, total, lacking⟩ := L
      have same : int ((st.kernel.sem s).count + 1) = (st.kernel.sem s).count + 1 := by
        simp only [intMax] at *
        exact int_small (by omega) (by omega)
      rcases semSignal_cases locked with ⟨waiters, rfl⟩ | ⟨waiters, ptr, node, pcb, -, -, rfl⟩ <;>
        refine ⟨?_, ?_, ?_⟩ <;> simp only [Kernel.setSem, update_self, same] <;> push_cast <;> omega
    · refine L.congr ?_ rfl (update_of_ne ss ..)
      rcases semSignal_cases locked with ⟨-, rfl⟩ | ⟨-, ptr, node, pcb, -, -, rfl⟩ <;> exact update_of_ne ss ..

/-- What the semaphores promise while no semaphore lock is held. -/
structure SemSafe (v : Sem → Int) (st : State Cpu Sem Ctx) : Prop where
  /-- The queues and the counters agree, and the tasks that sleep are those that are in one queue, once. -/
  queues : ∃ w, Queues st.kernel w ∧
    (∀ s, (st.kernel.sem s).cntTasks = (w s).length ∧
      (st.kernel.sem s).cntTasks = max 0 (-(st.kernel.sem s).count)) ∧
    ∀ t, st.created t = true →
      ((st.kernel.task t).sleep = 1 ↔ ∃ s, (w s).count t = 1 ∧ ∀ s', s' ≠ s → t ∉ w s') ∧
      ((st.kernel.task t).sleep ≠ 1 → ∀ s, t ∉ w s)
  /-- A call that blocked returns only after a signal took its task out of the queue. -/
  woken : ∀ c s st', Step st (.leave c s) st' → st.phase (st.resumed c) = .yielded s →
    st.signalled (st.resumed c) = true
  /-- The calls that returned are paid for by the initial value and the signals. -/
  returned : ∀ s, (st.returns s : Int) ≤ v s + st.signals s

omit [DecidableEq Cpu] [DecidableEq Sem] in
theorem SemInv.returns_le (I : SemInv st w) (L : Level v st s) : (st.returns s : Int) ≤ v s + st.signals s := by
  -- the tasks in the queue are in calls that have not returned
  have inside : (w s).length ≤ (st.calls s).length :=
    (List.subperm_of_subset (I.nodup s) fun t h => (I.inCall s t).mpr ((I.blocked s t).mp h).1.sem).length_le
  have counted := I.counted s
  have returned := I.returned s
  obtain ⟨-, total, lacking⟩ := L
  omega

theorem SemInv.safe (J : SchedInv st) (I : SemInv st w) (levels : ∀ s, Level v st s) : SemSafe v st := by
  refine ⟨⟨w, I.queues, fun s => ⟨I.counted s, (levels s).lacking⟩, fun t created =>
    ⟨⟨fun sleeps => ?_, ?_⟩, fun awake s h => awake (I.asleep s t h)⟩⟩, ?_, fun s => ?_⟩
  · have queued : ∃ s, t ∈ w s := by
      by_contra out
      have := I.awake t created fun s h => out ⟨s, h⟩
      rw [sleeps] at this; cases this
    obtain ⟨s, h⟩ := queued
    refine ⟨s, by rw [(I.nodup s).count, if_pos h], fun s' ss h' => ss ?_⟩
    exact Option.some.inj ((((I.blocked s' t).mp h').1.sem).symm.trans ((I.blocked s t).mp h).1.sem)
  · rintro ⟨s, once, -⟩
    exact I.asleep s t (List.count_pos_iff.mp (by omega))
  · intro c s st' step yielded
    cases step with
    | leave outside done => exact (I.leave J outside done).1 yielded
  · exact I.returns_le (levels s)

/-- The runs in which no count wraps. -/
def countingMachine (v : Sem → Int) : Machine (State Cpu Sem Ctx) (Label Cpu Sem Ctx) := (kernelMachine v).restrict Fits

theorem reachable_level (small : 0 ≤ v s ∧ v s ≤ intMax) (run : (countingMachine v).Reachable st) : Level v st s := by
  refine run.induct (Level v · s) (fun st init => .booted init small) fun st l st' L step => ?_
  exact step_level L (fun _ => step.1) step.2

/-- **No wake-up is lost and none is invented**, as long as no count wraps. -/
theorem reachable_semSafe (small : ∀ s, 0 ≤ v s ∧ v s ≤ intMax) (run : (countingMachine v).Reachable st) :
    SemSafe v st := by
  obtain ⟨w, I⟩ := reachable_sem run.of_restrict
  exact I.safe (reachable_sched run.of_restrict) fun s => reachable_level (small s) run

/-- A signal finds the count at its largest value. -/
theorem reachable_semSafe_counterexample :
    ¬∀ st : State Bool Unit Nat, (kernelMachine fun _ => intMax).Reachable st → SemSafe (fun _ => intMax) st := by
  intro all
  have boot : (kernelMachine fun _ => intMax).Reachable (sampleBoot intMax) := .init (sampleBoot_booted intMax)
  obtain ⟨w, -, counters, -⟩ := (all _ (boot.step (@Step.signal Bool Unit Nat _ _ _ _ () rfl))).queues
  exact absurd (counters ()).2 (by decide)

/-- A task waits on a semaphore of value 0 and blocks, before its `_yield`. -/
theorem reachable_semSafe_sample : ∃ st : State Bool Unit Nat,
    st.phase (.task 0) = .waiting () ∧ SemSafe (fun _ => 0) st := by
  have boot : (countingMachine fun _ => 0).Reachable (sampleBoot 0) := .init (sampleBoot_booted 0)
  have created := boot.step ⟨by trivial, @Step.create Bool Unit Nat _ _ _ 0 3 5 rfl⟩
  have trapped := created.step ⟨by trivial, @Step.save Bool Unit Nat _ _ _ _ false .yield 7 rfl (by decide) rfl⟩
  have running := trapped.step ⟨by trivial, @Step.switch Bool Unit Nat _ _ _ _ _ 2 _ _ rfl
    (kmtContextSwitch_eq _ _ _ (.task 0) (by decide +kernel))⟩
  have waiting := running.step ⟨by change -intMax < (0 : Int); decide,
    @Step.wait Bool Unit Nat _ _ _ _ false () 0 16 true (by decide) rfl rfl (by decide) rfl⟩
  exact ⟨_, rfl, reachable_semSafe (fun _ => by decide) waiting⟩

/-- No assertion of the scheduler and the semaphores fails, and none of them follows `NULL`. -/
theorem reachable_no_failure (run : (kernelMachine v).Reachable st) :
    (∀ c context, (kmtContextSave st.kernel c context).isSome) ∧
    (∀ s, (semSignal st.kernel s).isSome) ∧
    ∀ c n s tasknode, st.resumed c = .task n → tasknode ≠ 0 ∧ tasknode ∉ st.kernel.nodes →
      (semWait st.kernel c s tasknode).isSome := by
  have J := reachable_sched run
  obtain ⟨w, I⟩ := reachable_sem run
  refine ⟨fun c context => ?_, fun s => ?_, fun c n s tasknode scheduled alloc => ?_⟩
  · exact Option.isSome_iff_exists.mpr (kmtContextSave_isSome fun t current => J.run c t (.inl current))
  · have counted := I.counted s
    unfold semSignal
    by_cases waiters : 0 < (st.kernel.sem s).cntTasks
    · have nonempty : w s ≠ [] := by intro empty; simp [empty] at counted; omega
      obtain ⟨l, t, last⟩ := (List.eq_nil_or_concat' (w s)).resolve_left nonempty
      obtain ⟨ptr, node, pcb, found, unlinked, -⟩ := I.queues.delete last
      obtain ⟨q, queue, -, -, tasks⟩ := I.queues
      have head : (st.kernel.sem s).pcb ≠ 0 := fun h => nonempty (by
        rw [← tasks, (queue s).pcb_eq_zero.mp h]; rfl)
      simp [waiters, head, semListDelete, found, unlinked, Kernel.setTask]
    · simp [waiters]
  · obtain ⟨node, linked, -⟩ := I.queues.add alloc s (.task n)
    have current := J.cputask_of_resumed scheduled
    have running := J.run c _ (.inl current)
    unfold semWait
    by_cases blocks : int ((st.kernel.sem s).count - 1) < 0
    · simp [Kernel.setSem, blocks, current, semListAdd, Kernel.setTask, linked, alloc.1, running]
    · simp [Kernel.setSem, blocks]

end OsLabs.Kmt
