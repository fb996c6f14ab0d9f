import BorealOS.Interrupts.StubTransparency

/-! The stack pointer that the stubs hand to their C++ routines. The kernel is compiled
with `-mabi=sysv`: at the first instruction of a function the address above the return
address is a multiple of 16. The stubs round the stack pointer down to such an address
and then go 8 bytes further, so that the return address itself is at a multiple of 16. -/
namespace BorealOS.Interrupts.Stub

open StackMemory

/-- What the ABI asks for at the first instruction of a function, when the return address
has been pushed. -/
def EntryAligned (entered : State) : Prop := (entered.registers .rsp + 8).toNat % 16 = 0

theorem HandedOver.pushed_top {vector : Fin 256} {saved before : State} (handed : HandedOver vector saved before)
    (address : Word) : (before.pushWord address).registers .rsp = (saved.registers .rsp &&& -16) - 16 := by
  rw [State.pushWord_rsp,handed.top]
  bv_omega

theorem HandedOver.not_entryAligned {vector : Fin 256} {saved before : State} (handed : HandedOver vector saved before)
    (address : Word) : ¬ EntryAligned (before.pushWord address) := by
  have low := and_sixteen (saved.registers .rsp)
  have rounded : (saved.registers .rsp &&& -16).toNat % 16 = 0 := by omega
  have off : ((saved.registers .rsp &&& -16) - 16 + 8).toNat % 16 = 8 := by
    generalize saved.registers .rsp &&& -16 = top at rounded
    bv_omega
  unfold EntryAligned
  rw [handed.pushed_top,off]
  decide

theorem calls_handedOver (environment : Environment) (kind : StubKind) (vector : Fin 256) (interrupted : Interrupted)
    (errorCode stack : Word) (memory : Memory) : ∃ saved before address,
      calls environment (kind.code vector) (deliver kind interrupted errorCode stack memory) =
        [(kind.routine,before.pushWord address)] ∧ HandedOver vector saved before := by
  obtain ⟨dummy,middle,code,silent,ran,stacked⟩ := framed environment kind vector interrupted errorCode stack memory
  obtain ⟨saved,before,entry,handed,_⟩ := run_entry vector ran stacked rfl
  rw [code]
  exact ⟨saved,before,_,calls_stub silent entry,handed⟩

/-- No stub calls its routine with an aligned stack, wherever the processor begins to
push the frame. -/
theorem stub_never_aligned (environment : Environment) (kind : StubKind) (vector : Fin 256) (interrupted : Interrupted)
    (errorCode stack : Word) (memory : Memory) : ∃ entered,
      calls environment (kind.code vector) (deliver kind interrupted errorCode stack memory) = [(kind.routine,entered)] ∧
        ¬ EntryAligned entered := by
  obtain ⟨saved,before,address,called,handed⟩ := calls_handedOver environment kind vector interrupted errorCode stack memory
  exact ⟨before.pushWord address,called,handed.not_entryAligned address⟩

/-- The handler of the timer interrupt is entered 8 bytes off. -/
theorem stub_not_always_aligned :
    ¬ ∀ (environment : Environment) (kind : StubKind) (vector : Fin 256) (interrupted : Interrupted)
      (errorCode stack : Word) (memory : Memory),
      ∀ call ∈ calls environment (kind.code vector) (deliver kind interrupted errorCode stack memory), EntryAligned call.2 := by
  intro always
  have aligned := always wiping .irq 32 faulting 0 0xFFFFFFFF80100000 (fun _ => 0)
  obtain ⟨saved,before,address,called,handed⟩ := calls_handedOver wiping .irq 32 faulting 0 0xFFFFFFFF80100000 (fun _ => 0)
  rw [called] at aligned
  have entered := aligned (StubKind.irq.routine,before.pushWord address) List.mem_cons_self
  exact handed.not_entryAligned address entered

end BorealOS.Interrupts.Stub
