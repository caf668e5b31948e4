import InferFlux.KVCache.PagedKVCache

/-!
# The order of the offload writes

The workers of `AsyncFileWriter` take the tasks in order, but each writes its file after it has
let go of the queue's lock. Two workers may hold tasks of one page at a time, and the older task
may then be written last. A single worker never does this.
-/

namespace InferFlux.KVCache

open LoggedRun List

variable {α : Type} {files : String → Nat → Option (List α)} {task other : WriteTask α}

def WriteTask.file (task : WriteTask α) : String × Nat := (task.path, task.pageId)

def store (files : String → Nat → Option (List α)) (task : WriteTask α) :
    String → Nat → Option (List α) :=
  Function.update files task.path (Function.update (files task.path) task.pageId (some task.values))

theorem store_apply (path : String) (pageId : Nat) : store files task path pageId =
    if task.file = (path, pageId) then some task.values else files path pageId := by
  simp only [store, WriteTask.file, Function.update_apply, Prod.mk.injEq]
  grind

theorem store_comm (h : task.file ≠ other.file) :
    store (store files task) other = store (store files other) task := by
  funext path pageId
  simp only [store_apply]
  grind

/-- A task of another file than those before it may as well be written first. -/
theorem foldl_store_middle (before after : List (WriteTask α))
    (h : ∀ other ∈ before, other.file ≠ task.file) :
    (before ++ task :: after).foldl store files =
      (before ++ after).foldl store (store files task) := by
  induction before generalizing files with
  | nil => rfl
  | cons first before ih =>
    obtain ⟨hfirst, hbefore⟩ := forall_mem_cons.mp h
    simp [ih hbefore, store_comm hfirst]

theorem foldl_store_of_forall_ne (tasks : List (WriteTask α))
    (h : ∀ other ∈ tasks, other.file ≠ task.file) :
    tasks.foldl store files task.path task.pageId = files task.path task.pageId := by
  induction tasks generalizing files with
  | nil => rfl
  | cons first tasks ih =>
    obtain ⟨hfirst, htasks⟩ := forall_mem_cons.mp h
    rw [foldl_cons, ih htasks, store_apply]
    exact if_neg hfirst

inductive OffloadOp (α : Type) where
  | persistPage (pageId : Nat) (values : List α)
  | workerTake
  /-- The worker with the `i`-th of the taken tasks writes its file. -/
  | workerWrite (i : Nat)

/-- One step of a caller or of one of the workers. It logs the task of a `PersistPage` call. -/
def offloadStep (workers : Nat) (c : PagedKVCache α) :
    OffloadOp α → Option (PagedKVCache α × List (WriteTask α))
  | .persistPage pageId values =>
    some (persistPage c pageId values,
      if c.offloadPath = "" then [] else [⟨c.offloadPath, pageId, values⟩])
  | .workerTake => if c.inFlight.length < workers then some (workerTake c, []) else none
  | .workerWrite i => some (workerWrite c i, [])

/-- There is one worker, or none takes a task while another one holds a task of the same page. -/
def OneWriterPerFile (workers : Nat) (c : PagedKVCache α) : OffloadOp α → Prop
  | .workerTake =>
    workers ≤ 1 ∨ ∀ next ∈ c.tasks.head?, ∀ task ∈ c.inFlight, task.file ≠ next.file
  | _ => True

/-- The writes to come lead to the files of the logged calls, and no two workers write to one
file. -/
structure InOrder (start : String → Nat → Option (List α)) (c : PagedKVCache α)
    (log : List (WriteTask α)) : Prop where
  files : (c.inFlight ++ c.tasks).foldl store c.files = log.foldl store start
  apart : (c.inFlight.map WriteTask.file).Nodup

variable {start : String → Nat → Option (List α)} {c : PagedKVCache α} {log : List (WriteTask α)}

section

variable (h : InOrder start c log)
include h

theorem InOrder.persistPage (pageId : Nat) (values : List α) :
    InOrder start (persistPage c pageId values)
      (log ++ if c.offloadPath = "" then [] else [⟨c.offloadPath, pageId, values⟩]) := by
  unfold KVCache.persistPage
  split_ifs
  · rwa [append_nil]
  · refine ⟨?_, h.apart⟩
    simp only [← append_assoc, foldl_append] at h ⊢
    rw [← h.files, foldl_append]

theorem InOrder.workerTake
    (hfree : ∀ next ∈ c.tasks.head?, ∀ task ∈ c.inFlight, task.file ≠ next.file) :
    InOrder start (workerTake c) log := by
  unfold KVCache.workerTake
  split
  next => exact h
  next task tasks htasks =>
    refine ⟨?_, ?_⟩
    · rw [← h.files, htasks]
      simp
    · rw [map_append, nodup_append_comm]
      refine nodup_cons.mpr ⟨?_, h.apart⟩
      simpa using hfree task (by simp [htasks])

theorem InOrder.workerWrite (i : Nat) : InOrder start (workerWrite c i) log := by
  unfold KVCache.workerWrite
  split
  next => exact h
  next task htask =>
    obtain ⟨hi, rfl⟩ := List.getElem?_eq_some_iff.mp htask
    have hsplit : c.inFlight = c.inFlight.take i ++ c.inFlight[i] :: c.inFlight.drop (i + 1) := by
      rw [← drop_eq_getElem_cons hi, take_append_drop]
    have hbefore : ∀ other ∈ c.inFlight.take i, other.file ≠ c.inFlight[i].file := by
      have hapart := h.apart
      rw [hsplit, map_append, nodup_append] at hapart
      intro other hother
      exact hapart.2.2 _ (mem_map_of_mem hother) _ (mem_map_of_mem mem_cons_self)
    refine ⟨?_, h.apart.sublist ((eraseIdx_sublist ..).map _)⟩
    rw [← h.files, eraseIdx_eq_take_drop_succ]
    conv_rhs => rw [hsplit]
    rw [append_assoc, append_assoc, cons_append, foldl_store_middle _ _ hbefore]
    rfl

theorem InOrder.step {workers : Nat} {op : OffloadOp α} {c' : PagedKVCache α}
    {e : List (WriteTask α)} (hpre : OneWriterPerFile workers c op)
    (hstep : offloadStep workers c op = some (c', e)) : InOrder start c' (log ++ e) := by
  cases op with
  | persistPage pageId values =>
    cases hstep
    exact h.persistPage pageId values
  | workerTake =>
    obtain ⟨hfree, hstep⟩ := Option.ite_none_right_eq_some.mp hstep
    cases hstep
    rw [append_nil]
    refine h.workerTake ?_
    rcases hpre with hone | hpre
    · simp [length_eq_zero_iff.mp (Nat.lt_one_iff.mp (hfree.trans_le hone))]
    · exact hpre
  | workerWrite i =>
    cases hstep
    rw [append_nil]
    exact h.workerWrite i

end

/-- In every run in which no two workers hold tasks of one page at a time, so in every run of a
single worker, the file of each page contains the buffer of the last `PersistPage` call for it
once the tasks have completed. -/
theorem offload_keeps_last (workers : Nat) (c : PagedKVCache α) (ops : List (OffloadOp α))
    (hidle : c.tasks = [] ∧ c.inFlight = [])
    (hops : Along (offloadStep workers) (OneWriterPerFile workers) c ops)
    (c' : PagedKVCache α) (log : List (WriteTask α))
    (hrun : LoggedRun.run (offloadStep workers) c ops = some (c', log))
    (hdone : c'.tasks = [] ∧ c'.inFlight = []) (before after : List (WriteTask α))
    (task : WriteTask α) (hlog : log = before ++ task :: after)
    (hlast : ∀ other ∈ after, other.file ≠ task.file) :
    c'.files task.path task.pageId = some task.values := by
  have hstart : InOrder c.files c [] := by
    refine ⟨?_, ?_⟩ <;> rw [hidle.2]
    · rw [hidle.1]
      rfl
    · exact nodup_nil
  have hfiles := (hops.invariant_log hstart (fun _ _ _ _ _ h hpre hstep => h.step hpre hstep)
    hrun).files
  rw [hdone.1, hdone.2, append_nil, foldl_nil, hlog, foldl_append, foldl_cons] at hfiles
  rw [hfiles, foldl_store_of_forall_ne after hlast, store_apply]
  exact if_pos rfl

theorem offload_keeps_last_one_worker :
    let c : PagedKVCache Nat := { (.new 1 8 .lru : PagedKVCache Nat) with offloadPath := "kv" }
    ∃ c' log, LoggedRun.run (offloadStep 1) c [.persistPage 0 [1], .persistPage 0 [2], .workerTake,
        .workerWrite 0, .workerTake, .workerWrite 0] = some (c', log) ∧
      c'.files "kv" 0 = some [2] := by
  intro c
  refine ⟨_, _, rfl, offload_keeps_last 1 c [.persistPage 0 [1], .persistPage 0 [2], .workerTake,
    .workerWrite 0, .workerTake, .workerWrite 0] ⟨rfl, rfl⟩ (along_of_forall fun op _ s => ?_) _ _
    rfl ⟨rfl, rfl⟩ [⟨"kv", 0, [1]⟩] [] ⟨"kv", 0, [2]⟩ rfl (by simp)⟩
  cases op with
  | workerTake => exact .inl (Nat.le_refl 1)
  | _ => trivial

/-- Two workers take the two tasks of a page, and the older task is written last. -/
theorem offload_keeps_older_version :
    let c : PagedKVCache Nat := { (.new 1 8 .lru : PagedKVCache Nat) with offloadPath := "kv" }
    ∃ c', LoggedRun.run (offloadStep 2) c [.persistPage 0 [1], .persistPage 0 [2], .workerTake,
        .workerTake, .workerWrite 1, .workerWrite 0] = some (c', [⟨"kv", 0, [1]⟩, ⟨"kv", 0, [2]⟩]) ∧
      c'.tasks = [] ∧ c'.inFlight = [] ∧ (KVCache.read c' 0).1 = .ok [1] :=
  ⟨_, rfl, rfl, rfl, rfl⟩

end InferFlux.KVCache
