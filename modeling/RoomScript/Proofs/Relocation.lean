import RoomScript.Proofs.Block
import RoomScript.Proofs.Relocation.Step
import RoomScript.Proofs.Termination
import Mathlib.Data.List.Forall2

/-!
# Programs do not depend on where they are placed

A session over a program and the same session over the program behind other bytes answer alike, request
by request: the same results up to the positions in faults, the same calls to the world, the same store,
and threads that differ in their positions alone. The functions of a script block stand behind its table
of offsets, so the block behaves as its functions would without the table.
-/
namespace RoomScript

/-- Interpreters that differ in the positions of their threads alone. -/
structure Interpreter.Shifted (d : Nat) (it it' : Interpreter) : Prop where
  threads : it.threads.Shifted d it'.threads
  store : it'.store = it.store

/-- Reports of an operation that differ in positions alone. -/
structure Report.Shifted {α : Type} (d : Nat) (r r' : Report α) : Prop where
  interpreter : r.interpreter.Shifted d r'.interpreter
  calls : r'.calls = r.calls
  result : r'.result = r.result.mapError (Fault.shift d)

variable {front : Array UInt8} {p : Program} {slot : Slot}

/-- A run on the program behind other bytes ends after as many iterations. -/
theorem Machine.Ends.behind {n : Nat} {m m' last : Machine} {result : Except Fault Outcome}
    (h : Ends p slot n m last result) (ha : m.Alike front.size (Thread.Shifted front.size) m') :
    ∃ last', Ends (p.behind front) slot n m' last' (result.mapError (Fault.shift front.size)) ∧
      last.Alike front.size (Thread.Corresponds front.size) last' := by
  induction h generalizing m' with
  | stop hs =>
      have hstep := ha.step p slot
      generalize hs' : m'.step (p.behind front) slot = s' at hstep
      rw [hs] at hstep
      cases hstep with
      | stopped hl => exact ⟨_, .stop hs', hl⟩
  | step hs _ ih =>
      have hstep := ha.step p slot
      generalize hs' : m'.step (p.behind front) slot = s' at hstep
      rw [hs] at hstep
      cases hstep with
      | running hnext =>
          obtain ⟨last', hends, hl⟩ := ih hnext
          exact ⟨last', .step hs' hends, hl⟩

namespace Interpreter

variable {it it' : Interpreter}

theorem Shifted.machine (h : it.Shifted front.size it') (ha : (it.threads.thread slot).isAlive) :
    (it.machine slot).Alike front.size (Thread.Shifted front.size) (it'.machine slot) where
  thread := by
    have ht := h.threads slot
    unfold Interpreter.machine
    generalize it.threads.thread slot = t, it'.threads.thread slot = t' at ht ha ⊢
    cases ht with
    | dead => cases ha
    | alive ht => exact { ht with alive := rfl, status := rfl }
  pool := h.threads
  store := h.store
  calls := rfl

theorem Runs.behind {n : Nat} {ran : Report Outcome} (h : it.Runs p slot n ran)
    (hs : it.Shifted front.size it') :
    ∃ ran', it'.Runs (p.behind front) slot n ran' ∧ ran.Shifted front.size ran' := by
  have halive := (hs.threads slot).isAlive
  cases h with
  | dead hd => exact ⟨_, .dead (halive ▸ hd), hs, rfl, rfl⟩
  | ends ha hends =>
      obtain ⟨last', hends', hl⟩ := hends.behind (hs.machine ha)
      exact ⟨_, .ends (halive ▸ ha) hends', ⟨hl.pool.put slot hl.thread, hl.store⟩, hl.calls, rfl⟩

theorem Shifted.runSlot (h : it.Shifted front.size it') (hr : it.Reachable fun _ => True)
    (hr' : it'.Reachable fun _ => True) (p : Program) (slot : Slot) :
    (it.runSlot p slot).Shifted front.size (it'.runSlot (p.behind front) slot) := by
  obtain ⟨n, _, hruns⟩ := exists_runs hr p slot
  obtain ⟨k, _, hruns'⟩ := exists_runs hr' (p.behind front) slot
  obtain ⟨ran', hran', hs⟩ := hruns.behind h
  rwa [hruns'.unique hran']

theorem Shifted.tickSlots (h : it.Shifted front.size it') (hr : it.Reachable fun _ => True)
    (hr' : it'.Reachable fun _ => True) (p : Program) (slots : List Slot) :
    (tickSlots p slots it).Shifted front.size (tickSlots (p.behind front) slots it') := by
  induction slots generalizing it it' with
  | nil => exact ⟨h, rfl, rfl⟩
  | cons slot rest ih =>
      simp only [Interpreter.tickSlots, (h.threads slot).isAlive]
      by_cases ha : (it.threads.thread slot).isAlive
      · have hs := h.runSlot hr hr' p slot
        have hrest := ih hs.interpreter (hr.runSlot trivial slot) (hr'.runSlot trivial slot)
        simp only [ha, if_true, hs.result]
        cases (it.runSlot p slot).result with
        | error fault => exact ⟨hs.interpreter, hs.calls, rfl⟩
        | ok outcome =>
            refine ⟨hrest.interpreter, ?_, hrest.result⟩
            simp only [mapError_ok, hs.calls, hrest.calls]
      · simp only [ha]
        exact ih h hr hr'

theorem Shifted.startEvent (h : it.Shifted front.size it') (p : Program) (event : UInt8) :
    Fault.Agree front.size (fun x x' => x.1.Shifted front.size x'.1 ∧ x'.2 = x.2)
      (it.startEvent p event) (it'.startEvent (p.behind front) event) := by
  simp only [Interpreter.startEvent, p.entry?_behind front, h.threads.place?_eq]
  cases p.entry? event with
  | none => exact .error (.unknownEvent event)
  | some entry =>
      simp only [Option.map_some]
      cases it.threads.place? none anySlot with
      | none => exact .ok ⟨h, rfl⟩
      | some place =>
          exact .ok ⟨{ h with threads := h.threads.put place (.alive (.start _ entry event)) }, rfl⟩

/-- Every request answers alike. -/
theorem Shifted.serve (h : it.Shifted front.size it') (hr : it.Reachable fun _ => True)
    (hr' : it'.Reachable fun _ => True) (p : Program) (request : Request) :
    (it.serve p request).Shifted front.size (it'.serve (p.behind front) request) := by
  cases request with
  | startEvent event =>
      have hs := h.startEvent p event
      simp only [Interpreter.serve]
      generalize it.startEvent p event = r, it'.startEvent (p.behind front) event = r' at hs ⊢
      cases hs with
      | error fault => exact ⟨h, rfl, rfl⟩
      | ok hs =>
          exact ⟨hs.1, rfl, congrArg (fun slot => Except.ok (Answer.started slot)) hs.2⟩
  | tick =>
      have ht := h.tickSlots hr hr' p (List.finRange maxThreads)
      refine ⟨ht.interpreter, ht.calls, ?_⟩
      simp only [Interpreter.serve, Interpreter.tick, ht.result]
      cases (Interpreter.tickSlots p (List.finRange maxThreads) it).result <;> rfl
  | runThread number =>
      simp only [Interpreter.serve, Interpreter.runThread]
      cases Pool.slot? number with
      | none => exact ⟨h, rfl, rfl⟩
      | some slot =>
          have hs := h.runSlot hr hr' p slot
          refine ⟨hs.interpreter, hs.calls, ?_⟩
          simp only [hs.result]
          cases (it.runSlot p slot).result <;> rfl
  | resetThreads => exact ⟨⟨.vacant _, h.store⟩, rfl, rfl⟩
  | reset => exact ⟨⟨.vacant _, congrArg Store.clear h.store⟩, rfl, rfl⟩
  | store request =>
      simp only [Interpreter.serve, h.store]
      exact ⟨⟨h.threads, rfl⟩, rfl, rfl⟩

theorem Shifted.session (h : it.Shifted front.size it') (hr : it.Reachable fun _ => True)
    (hr' : it'.Reachable fun _ => True) (p : Program) (requests : List Request) :
    List.Forall₂ (Report.Shifted front.size) (session p it requests)
      (session (p.behind front) it' requests) := by
  induction requests generalizing it it' with
  | nil => exact .nil
  | cons request rest ih =>
      have hs := h.serve hr hr' p request
      exact .cons hs (ih hs.interpreter (.serve request trivial hr) (.serve request trivial hr'))

end Interpreter

namespace Program

/-- The program of a script block without the table of offsets in front of its functions. -/
def withoutTable (block : Array UInt8) (p : Program) : Program where
  code := block.extract (tableEntry block 0)
  entries := p.entries.map (· - tableEntry block 0)

/-- The table of a block that is accepted lies inside the block and in front of all functions. -/
theorem table_of_ofBlock {block : Array UInt8} (h : ofBlock block = .ok p) :
    p.code = block ∧ tableEntry block 0 ≤ block.size ∧
      ∀ entry ∈ p.entries, tableEntry block 0 ≤ entry := by
  obtain ⟨hw, rfl⟩ := wellFormed_of_ofBlock h
  refine ⟨rfl, hw.hasTable.le_size, fun entry he => ?_⟩
  obtain ⟨index, hi, rfl⟩ := List.mem_map.mp he
  exact (hw.entries index (List.mem_range.mp hi)).table_le

/-- A block is its functions behind its table. -/
theorem eq_behind_table {block : Array UInt8} (h : ofBlock block = .ok p) :
    p = (withoutTable block p).behind (block.extract 0 (tableEntry block 0)) := by
  obtain ⟨hcode, hsize, hentries⟩ := table_of_ofBlock h
  have hfront : (block.extract 0 (tableEntry block 0)).size = tableEntry block 0 := by
    rw [Array.size_extract]
    omega
  have hcode' : p.code =
      block.extract 0 (tableEntry block 0) ++ block.extract (tableEntry block 0) := by
    rw [hcode, Array.extract_append_extract]
    simp [hsize]
  have hentries' : p.entries =
      (p.entries.map (· - tableEntry block 0)).map (· + tableEntry block 0) := by
    rw [List.map_map]
    calc p.entries
        = p.entries.map id := (List.map_id _).symm
      _ = _ := List.map_congr_left fun entry he => (Nat.sub_add_cancel (hentries entry he)).symm
  simp only [behind, withoutTable, hfront, ← hcode', ← hentries']

end Program

namespace Interpreter

/-- A session over a program answers as the same session over the program behind other bytes; a session
over a script block answers as one over its functions without the table. -/
theorem session_relocates (front : Array UInt8) (p : Program) (requests : List Request) :
    List.Forall₂ (Report.Shifted front.size) (session p {} requests)
        (session (p.behind front) {} requests) ∧
      ∀ block, Program.ofBlock block = .ok p →
        List.Forall₂ (Report.Shifted (Program.tableEntry block 0))
          (session (p.withoutTable block) {} requests) (session p {} requests) := by
  have hfresh : ∀ d, ({} : Interpreter).Shifted d {} := fun d => ⟨.vacant d, rfl⟩
  constructor
  · exact (hfresh _).session .fresh .fresh p requests
  · intro block hblock
    have hsize := (Program.table_of_ofBlock hblock).2.1
    have hs := (hfresh (block.extract 0 (Program.tableEntry block 0)).size).session .fresh .fresh
      (p.withoutTable block) requests
    rw [← Program.eq_behind_table hblock, Array.size_extract, Nat.min_eq_left hsize] at hs
    exact hs

/-- A block of one function, which switches to camera 7 and ends. -/
theorem session_relocates_block :
    let block : Array UInt8 := #[2, 0, 0x29, 7, 1, 0]
    let p : Program := { code := block, entries := [2] }
    Program.ofBlock block = .ok p ∧
      List.Forall₂ (Report.Shifted 2)
        (session { code := #[0x29, 7, 1, 0], entries := [0] } {} [.startEvent 0, .tick])
        (session p {} [.startEvent 0, .tick]) := by
  have hblock : Program.ofBlock #[2, 0, 0x29, 7, 1, 0] =
      .ok { code := #[2, 0, 0x29, 7, 1, 0], entries := [2] } := by rfl
  exact ⟨hblock, (session_relocates #[] _ [.startEvent 0, .tick]).2 _ hblock⟩

end Interpreter

end RoomScript
