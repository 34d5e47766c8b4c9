import Mathlib
import CellChain.Proofs.OperandLimits
import CellChain.Proofs.StackModel
/-! Calls run alone on their arguments. A call is accepted by the depths at the two ends of its body, while each
instruction of the body is checked against the whole modelled stack. So the number of results is always right, but
a block that a client opens may reach below its arguments; how far its body reaches decides. What a contract is
lowered to makes calls of one argument that keep to it. -/
namespace CellChain

open Machine (run)

structure Call.Decided (c : Call) : Prop where
  results : ∀ m m' : Machine, (m.stack.length : Int) = c.arguments → run c.body m = .ok () m' →
    (m'.stack.length : Int) = c.results
  within : needOf c.body ≤ c.arguments → ∀ (m : Machine) h m', (m.stack.length : Int) = c.arguments →
    run c.body m = .error h m' → h.isUnderflow = false
  beyond : c.arguments < needOf c.body → WordSized c.body → ∀ m : Machine, (m.stack.length : Int) = c.arguments →
    (∀ m', run c.body m ≠ .ok () m') ∧
    ∀ bottom m', run c.body (m.above bottom) = .ok () m' → ∃ h m'', run c.body m = .error h m'' ∧ h.isUnderflow = true

theorem Call.Honest.decided {c : Call} (h : c.Honest) : c.Decided := by
  refine ⟨fun m m' size ok => ?_, fun enough m fault m' size bad => ?_, fun few sized m size => ?_⟩
  · have length := h.works.length m () m' ok
    have net := h.net
    omega
  · have fine := h.works.safe m (by omega)
    rwa [bad] at fine
  · have incomplete (m' : Machine) : run c.body m ≠ .ok () m' := by
      intro ok
      have least := h.works.least sized m () m' ok
      omega
    refine ⟨incomplete, fun bottom m' ok => ?_⟩
    cases alone : run c.body m with
    | ok _ m'' => exact absurd alone (incomplete m'')
    | error why m'' =>
      -- Had it ended for another reason, it would have ended so above other entries as well.
      refine ⟨why, m'', rfl, ?_⟩
      by_contra other
      have framed := h.works.frame m bottom (by rw [alone]; simpa [Machine.lacks] using other)
      rw [alone, ok] at framed
      cases framed

theorem exportedCallsHonest {α : Type} {x : Emit α} (client : Emit.Exported x) {target : Target} {start : Int}
    {a : α} {e : Emitter} {code : List Instr} (emitted : x (Emitter.start target start) = .ok (a, e))
    (finished : e.code = .ok code) : ∀ c ∈ callsOf code, c.Honest := by
  have begun : Chained start (Emitter.start target start).block [] start := ⟨rfl, .runNil⟩
  have chained := Emit.exportedKeeps client start _ a e emitted begun
  obtain ⟨closed, rfl⟩ := finishedCode finished
  rw [closed] at chained
  exact fun c inside => (chained.2.calls c inside).1

theorem callBodiesByNeed (target : Target) :
    (∀ {α : Type} {x : Emit α}, Emit.Exported x → ∀ {start : Int} {a : α} {e : Emitter} {code : List Instr},
      x (Emitter.start target start) = .ok (a, e) → e.code = .ok code → ∀ c ∈ callsOf code, c.Decided) ∧
    ∀ {u : SourceUnit} {contract : Contract} {program : Program}, lower target u contract = .ok program →
      ∀ frag ∈ program.fragments, ∀ c ∈ callsOf frag.code, c.Decided ∧ needOf c.body ≤ c.arguments := by
  constructor
  · intro α x client start a e code emitted finished c inside
    exact (exportedCallsHonest client emitted finished c inside).decided
  · intro u contract program lowered frag mem c inside
    obtain ⟨_, _, tracked⟩ := Lower.fragmentObeys (P := Emit.Tracked True) Emit.trackedReads Emit.trackedWrites
      lowered mem
    obtain ⟨honest, own⟩ := tracked.calls c inside
    exact ⟨honest.decided, own trivial⟩

/- A call of no arguments and no results is accepted above one value: its body drops that value and puts another in
its place. Alone it has none to drop. -/
theorem dropBelowArguments : ∃ e,
    (Emit.startContinuation >>= fun _ => Emit.drop >>= fun _ => Emit.pushInt 7 >>= fun _ => Emit.callRef 0 0)
      (Emitter.start {} 1) = .ok ((), e) ∧ e.code = .ok [.callRef 0 0 [.simple .drop [], .pushInt 7]] ∧
    ∀ m : Machine, m.stack = [] → ∃ h m', run [.simple .drop [], .pushInt 7] m = .error h m' ∧
      h.isUnderflow = true := by
  obtain ⟨e, emitted, finished⟩ : ∃ e,
      (Emit.startContinuation >>= fun _ => Emit.drop >>= fun _ => Emit.pushInt 7 >>= fun _ => Emit.callRef 0 0)
        (Emitter.start {} 1) = .ok ((), e) ∧ e.code = .ok [.callRef 0 0 [.simple .drop [], .pushInt 7]] :=
    ⟨_, rfl, rfl⟩
  refine ⟨e, emitted, finished, ?_⟩
  rintro ⟨_, root, limits, n⟩ rfl
  have decided := (callBodiesByNeed {}).1
    (.bind .startContinuation fun _ => .bind .drop fun _ => .bind (.pushInt 7) fun _ => .callRef 0 0)
    emitted finished ⟨0, 0, [.simple .drop [], .pushInt 7]⟩ (by simp [callsOf, Instr.calls])
  have sized : WordSized [.simple .drop [], .pushInt 7] := by
    simp [WordSized, operandsOf, Instr.overStack, Opcode.stackOperands]
  exact (decided.beyond (by decide) sized _ rfl).2 [.null] _ rfl

end CellChain
