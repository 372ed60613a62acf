import ReWizard.Analysis.Proof.BlockEdges
import ReWizard.Analysis.Proof.RebuilderCalls

/-!
# The bytes that the decoder is given

`AnalyzeFunction` and `LinearSweepFallback` hand the decoder a window of
`ZYDIS_MAX_INSTRUCTION_LENGTH` bytes, however close its address is to the end of the mapping.

* `decodeStep_withMemory`, `sweepStep_withMemory`: a pass reads no byte outside of its window, and
  `RebuilderCall.apply_withMemory`: a call reads no byte outside of its windows;
* `analyzeFunction_window`: `AnalyzeFunction` hands over the windows at the addresses that it goes on
  to, whether there is an instruction or not;
* `RebuilderCall.windows_inside_iff`: all windows of a call are mapped exactly when neither its
  functions nor its sweep come to an unvisited address in the last bytes of the mapping, and then
  (`RebuilderCall.apply_of_inside`) what lies outside of the mapping does not matter.
-/

namespace ReWizard

/-! ## Windows -/

/-- The arguments of `DisassembleSingle`. -/
structure DecodeWindow where
  data : Nat
  dataSz : Nat

/-- The window lies in the mapping. -/
def DecodeWindow.Inside (t : Target) (w : DecodeWindow) : Prop :=
  t.loader.currentImageBase ≤ w.data ∧ w.data + w.dataSz ≤ t.loader.imageEnd

/-- The window that a pass of the inner loop of `AnalyzeFunction` hands to the decoder. -/
def decodeWindow (t : Target) (s : AnalyzeState) : Option DecodeWindow :=
  if s.pc ∈ s.visited then none
  else if s.pc < t.loader.currentImageBase ∨ t.loader.imageEnd ≤ s.pc then none
  else some ⟨s.pc, maxInstructionLength⟩

/-- The window that a pass of the sweep over a range that ends at `stop` hands to the decoder. -/
def sweepWindow (ctx : AnalysisContext) (stop : Nat) (s : SweepState) : Option DecodeWindow :=
  if stop ≤ s.addr then none
  else if s.addr ∈ ctx.visited then none
  else some ⟨s.addr, maxInstructionLength⟩

theorem decodeWindow_eq_some {t : Target} {s : AnalyzeState} {w : DecodeWindow} :
    decodeWindow t s = some w ↔
      s.pc ∉ s.visited ∧ t.Mapped s.pc ∧ w = ⟨s.pc, maxInstructionLength⟩ := by
  have hm : t.Mapped s.pc ↔ ¬ (s.pc < t.loader.currentImageBase ∨ t.loader.imageEnd ≤ s.pc) := by
    unfold Target.Mapped
    omega
  unfold decodeWindow
  rw [hm]
  split
  · rename_i hv
    exact ⟨fun h => (by cases h), fun h => absurd hv h.1⟩
  · rename_i hv
    split
    · rename_i ho
      exact ⟨fun h => (by cases h), fun h => absurd ho h.2.1⟩
    · rename_i ho
      exact ⟨fun h => ⟨hv, ho, (Option.some.inj h).symm⟩, fun h => h.2.2 ▸ rfl⟩

theorem sweepWindow_eq_some {ctx : AnalysisContext} {stop : Nat} {s : SweepState}
    {w : DecodeWindow} : sweepWindow ctx stop s = some w ↔
      s.addr < stop ∧ s.addr ∉ ctx.visited ∧ w = ⟨s.addr, maxInstructionLength⟩ := by
  unfold sweepWindow
  split
  · rename_i hs
    exact ⟨fun h => (by cases h), fun h => absurd h.1 (Nat.not_lt.mpr hs)⟩
  · rename_i hs
    split
    · rename_i hv
      exact ⟨fun h => (by cases h), fun h => absurd hv h.2.1⟩
    · rename_i hv
      exact ⟨fun h => ⟨Nat.not_le.mp hs, hv, (Option.some.inj h).symm⟩, fun h => h.2.2 ▸ rfl⟩

/-! ## What a pass reads -/

/-- The target with other bytes in memory. -/
def Target.withMemory (t : Target) (memory : Nat → UInt8) : Target :=
  { t with loader := { t.loader with memory := memory } }

/-- The memories hold the same bytes in the window. -/
def DecodeWindow.Agree (memory memory' : Nat → UInt8) (w : DecodeWindow) : Prop :=
  ∀ a, w.data ≤ a → a < w.data + w.dataSz → memory' a = memory a

section

variable {t : Target} {memory : Nat → UInt8}

theorem readBytes_agree {m m' : Nat → UInt8} {a n : Nat} (h : DecodeWindow.Agree m m' ⟨a, n⟩) :
    readBytes m' a n = readBytes m a n := by
  unfold readBytes
  refine List.map_congr_left fun k hk => h (a + k) (Nat.le_add_right a k) ?_
  exact Nat.add_lt_add_left (List.mem_range.mp hk) a

theorem disassemble_withMemory {a : Nat}
    (h : DecodeWindow.Agree t.loader.memory memory ⟨a, maxInstructionLength⟩) :
    (t.withMemory memory).disassemble a = t.disassemble a := by
  unfold Target.disassemble Disassembler.disassembleSingle
  exact congrArg (fun bytes => (t.disassembler.decodeFull bytes).map _) (readBytes_agree h)

/-- A pass of the inner loop reads the bytes of its window only. -/
theorem decodeStep_withMemory {s : AnalyzeState}
    (h : ∀ w, decodeWindow t s = some w → w.Agree t.loader.memory memory) :
    decodeStep (t.withMemory memory) s = decodeStep t s := by
  by_cases hv : s.pc ∈ s.visited
  · unfold decodeStep
    rw [if_pos hv, if_pos hv]
  · by_cases hm : t.Mapped s.pc
    · have hd : (t.withMemory memory).disassemble s.pc = t.disassemble s.pc :=
        disassemble_withMemory (h _ (decodeWindow_eq_some.mpr ⟨hv, hm, rfl⟩))
      unfold decodeStep
      rw [hd]
      rfl
    · have ho : s.pc < t.loader.currentImageBase ∨ t.loader.imageEnd ≤ s.pc := by
        unfold Target.Mapped at hm
        omega
      unfold decodeStep
      rw [if_neg hv, if_neg hv, if_pos ho]
      exact if_pos ho

/-- A pass of the sweep reads the bytes of its window only. -/
theorem sweepStep_withMemory {ctx : AnalysisContext} {stop : Nat} {s : SweepState}
    (h : ∀ w, sweepWindow ctx stop s = some w → w.Agree t.loader.memory memory) :
    sweepStep (t.withMemory memory) ctx stop s = sweepStep t ctx stop s := by
  unfold sweepStep
  split
  · rfl
  · rename_i hs
    split
    · rfl
    · rename_i hv
      have hd : (t.withMemory memory).disassemble s.addr = t.disassemble s.addr :=
        disassemble_withMemory (h _ (sweepWindow_eq_some.mpr ⟨Nat.not_le.mp hs, hv, rfl⟩))
      rw [hd]
      rfl

end

/-! ## What the loops read -/

section

variable {t : Target} {memory : Nat → UInt8} {ctx : AnalysisContext} {start : Nat}

/-- `AnalyzeFunction` reads the bytes of its windows only. -/
theorem analyzeBlocks_withMemory {f : Function} {queue : List Nat}
    (h : ∀ r w, DecodePass t (analyzeInit ctx f start queue) r → decodeWindow t r = some w →
      w.Agree t.loader.memory memory) :
    analyzeBlocks (t.withMemory memory) ctx f start queue = analyzeBlocks t ctx f start queue := by
  refine Loop.exec_congr fun w hw => ?_
  unfold workStep
  cases hwork : w.work with
  | nil => rfl
  | cons pc rest =>
    dsimp only
    by_cases hpc : pc ∈ w.visited
    · exact (if_pos hpc).trans (if_pos hpc).symm
    · refine (if_neg hpc).trans (Eq.trans ?_ (if_neg hpc).symm)
      unfold decodeFrom
      refine congrArg (fun s => Loop.Out.next (AnalyzeState.addBasicBlock s)) ?_
      exact Loop.exec_congr fun r hr => decodeStep_withMemory fun v hv => h r v ⟨hw, hwork, hpc, hr⟩ hv

theorem discoverFunction_withMemory (mark : AnalyzeState → Bool) {s : ExploreState}
    (h : ∀ r w, DecodePass t (analyzeInit s.context (newFunction start) start s.functionWork) r →
      decodeWindow t r = some w → w.Agree t.loader.memory memory) :
    discoverFunction (t.withMemory memory) mark start s = discoverFunction t mark start s := by
  have heq : analyzeFunction (t.withMemory memory) s.context (newFunction start) start
      s.functionWork = analyzeFunction t s.context (newFunction start) start s.functionWork :=
    congrArg (AnalyzeState.mapFunction · Function.normalizeBasicBlocks) (analyzeBlocks_withMemory h)
  unfold discoverFunction
  rw [heq]
  rfl

theorem sweepRange_withMemory {range : Nat × Nat} {queue : List Nat}
    (h : ∀ r w, Loop.Reaches (sweepStep t ctx range.2) ⟨range.1, queue⟩ r →
      sweepWindow ctx range.2 r = some w → w.Agree t.loader.memory memory) :
    sweepRange (t.withMemory memory) ctx queue range = sweepRange t ctx queue range :=
  congrArg SweepState.functionWork
    (Loop.exec_congr fun r hr => sweepStep_withMemory fun w hw => h r w hr hw)

/-- The sweep over the ranges that are left, after those in `done`. -/
theorem sweepRanges_withMemory {queue : List Nat} : ∀ (ranges done : List (Nat × Nat)),
    (∀ before range after r w, done ++ ranges = before ++ range :: after →
      Loop.Reaches (sweepStep t ctx range.2)
        ⟨range.1, before.foldl (sweepRange t ctx) queue⟩ r →
      sweepWindow ctx range.2 r = some w → w.Agree t.loader.memory memory) →
    ranges.foldl (sweepRange (t.withMemory memory) ctx) (done.foldl (sweepRange t ctx) queue) =
      ranges.foldl (sweepRange t ctx) (done.foldl (sweepRange t ctx) queue)
  | [], _, _ => rfl
  | range :: ranges, done, h => by
    have hrange := sweepRange_withMemory fun r w hr hw => h done range ranges r w rfl hr hw
    have hrest := sweepRanges_withMemory ranges (done ++ [range])
      (by rwa [List.append_assoc, List.singleton_append])
    rw [List.foldl_append, List.foldl_cons, List.foldl_nil] at hrest
    rw [List.foldl_cons, List.foldl_cons, hrange]
    exact hrest

/-- Loops over functions that discover the same functions are the same. -/
theorem DiscoveryLoop.congr {t' : Target} {filter : Nat → Prop} {mark : AnalyzeState → Bool}
    {body body' : ExploreState → Loop.Out ExploreState} (h : DiscoveryLoop t filter mark body)
    (h' : DiscoveryLoop t' filter mark body') {s : ExploreState}
    (hsame : ∀ pc rest, TakesUp filter s pc rest →
      discoverFunction t' mark pc { s with functionWork := rest } =
        discoverFunction t mark pc { s with functionWork := rest }) : body' s = body s := by
  cases hq : s.functionWork with
  | nil => rw [h.empty s hq, h'.empty s hq]
  | cons pc rest =>
    by_cases ht : TakesUp filter s pc rest
    · rw [h.takes s pc rest ht, h'.takes s pc rest ht, hsame pc rest ht]
    · rw [h.drop s pc rest hq ht, h'.drop s pc rest hq ht]

end

/-! ## The passes of a function -/

section

variable {t : Target} {ctx : AnalysisContext} {f : Function} {start : Nat} {queue : List Nat}

/-- A visited address was decoded in a pass. -/
theorem exists_decodePass {v : Nat} (hv : v ∈ (analyzeBlocks t ctx f start queue).visited)
    (hold : v ∉ ctx.visited) :
    ∃ s, DecodePass t (analyzeInit ctx f start queue) s ∧ Decodes t s ∧ s.pc = v := by
  have hstep : ∀ s s', DecodePass t (analyzeInit ctx f start queue) s →
      (∀ v ∈ s.visited, v ∉ ctx.visited →
        ∃ r, DecodePass t (analyzeInit ctx f start queue) r ∧ Decodes t r ∧ r.pc = v) →
      (decodeStep t s = .next s' ∨ decodeStep t s = .done s') →
      ∀ v ∈ s'.visited, v ∉ ctx.visited →
        ∃ r, DecodePass t (analyzeInit ctx f start queue) r ∧ Decodes t r ∧ r.pc = v := by
    intro s s' hp hs hn v hv hold
    rcases decodeStep_visited hn with ⟨-, hvis⟩ | ⟨hdec, hvis⟩
    · exact hs v (hvis ▸ hv) hold
    · rw [hvis] at hv
      rcases Finset.mem_insert.mp hv with rfl | hv
      · exact ⟨s, hp, hdec, rfl⟩
      · exact hs v hv hold
  have hinv := analysis_inv (t := t) (I := fun s => ∀ v ∈ s.visited, v ∉ ctx.visited →
      ∃ r, DecodePass t (analyzeInit ctx f start queue) r ∧ Decodes t r ∧ r.pc = v)
    (rfl : (analyzeInit ctx f start queue).bb = none) (fun v hv hold => absurd hv hold)
    (fun s rest pc hs _ => hs)
    (fun s s' hp hs hn => hstep s s' hp hs (.inl hn))
    (fun s s' hp hs hn => by
      rw [addBasicBlock_visited]
      exact hstep s s' hp hs (.inr hn))
  exact (hinv.1 _ (analyzeBlocks_reached t ctx f start queue)).1 v hv hold

theorem decodeStep_work {s s' : AnalyzeState}
    (hn : decodeStep t s = .next s' ∨ decodeStep t s = .done s') : s.work <+: s'.work := by
  rcases decodeStep_result hn with ⟨rfl, -⟩ | ⟨-, bb, last, -, rfl⟩ | ⟨-, -, i, -, hdec, -⟩
  · exact List.prefix_rfl
  · exact List.prefix_rfl
  · exact hdec.work

theorem exits_work {s s' : AnalyzeState} (h : Loop.Exits (decodeStep t) s s') :
    s.work <+: s'.addBasicBlock.work := by
  obtain ⟨r, hr, hd⟩ := h.inv (I := fun r => s.work <+: r.work) List.prefix_rfl
    fun r r' hr hn => hr.trans (decodeStep_work (.inl hn))
  rw [(addBasicBlock_work s').1]
  exact hr.trans (decodeStep_work (.inr hd))

/-- What is in the work list and is never visited is decoded without success. -/
theorem exists_pass_of_work {w : AnalyzeState} {u : Nat}
    (hw : Loop.Reaches (workStep t) (analyzeInit ctx f start queue) w) (hu : u ∈ w.work)
    (hnew : u ∉ (analyzeBlocks t ctx f start queue).visited) :
    ∃ s, DecodePass t (analyzeInit ctx f start queue) s ∧ s.pc = u := by
  have he := hw.exits (analyzeBlocks_exits t ctx f start queue)
  generalize hr : analyzeBlocks t ctx f start queue = r at he
  induction he with
  | done hd =>
    rw [(workStep_done hd).2] at hu
    cases hu
  | next hn _ ih =>
    rename_i w w' _
    have hw' := hw.tail hn
    obtain ⟨pc, rest, hwork, ⟨hpc, rfl⟩ | ⟨hpc, rfl⟩⟩ := workStep_next hn
    · rw [hwork] at hu
      rcases List.mem_cons.mp hu with rfl | hu
      · exact absurd ((analyzeBlocks_extends hw).1 hpc) hnew
      · exact ih hw' hu hr
    · rw [hwork] at hu
      rcases List.mem_cons.mp hu with rfl | hu
      · exact ⟨_, ⟨hw, hwork, hpc, .refl⟩, rfl⟩
      · exact ih hw' ((exits_work (decode_exits t _)).subset hu) hr

/-- What a pass adds to the work list is there when the outer loop goes on. -/
theorem DecodePass.work_left {s s' : AnalyzeState}
    (hp : DecodePass t (analyzeInit ctx f start queue) s)
    (hn : decodeStep t s = .next s' ∨ decodeStep t s = .done s') :
    ∃ w, Loop.Reaches (workStep t) (analyzeInit ctx f start queue) w ∧ s'.work <+: w.work := by
  obtain ⟨x, hx, hreach⟩ := hp.leaves_after hn
  refine ⟨_, hreach, ?_⟩
  rcases hx with rfl | hx
  · rw [(addBasicBlock_work _).1]
  · exact exits_work hx

/-- Where control falls through, the next pass is at the next instruction. -/
theorem DecodePass.fallThrough {s : AnalyzeState} {i : ExtendedInstruction}
    (hp : DecodePass t (analyzeInit ctx f start queue) s) (hdec : Decodes t s)
    (hd : t.disassemble s.pc = some i) (hu : i.instruction.category ≠ .uncondBr)
    (hr : i.instruction.category ≠ .ret) :
    ∃ s', DecodePass t (analyzeInit ctx f start queue) s' ∧ s'.pc = i.next := by
  have hnext : ∃ s', decodeStep t s = .next s' ∧ s'.pc = i.next := by
    rw [decodeStep_eq_decodeInsn hdec.1 hdec.2.1 hd]
    have he : DecodeEffect t i s (decodeInsn t i s) := decodeInsn_effect
    generalize decodeInsn t i s = o at he
    cases he with
    | straight _ _ hpc _ _ => exact ⟨_, rfl, hpc⟩
    | cond _ _ hpc _ => exact ⟨_, rfl, hpc⟩
    | jump hcat _ _ => exact absurd hcat hu
    | ret hcat _ _ => exact absurd hcat hr
  obtain ⟨s', hn, hpc⟩ := hnext
  obtain ⟨hw, hwork, hstart, hs⟩ := hp
  exact ⟨s', ⟨hw, hwork, hstart, hs.tail hn⟩, hpc⟩

/-- A branch target that the instruction at `pc` enqueues is decoded in a later pass. -/
theorem DecodePass.enqueued {s : AnalyzeState} {i : ExtendedInstruction} {u : Nat}
    (hp : DecodePass t (analyzeInit ctx f start queue) s) (hdec : Decodes t s)
    (hd : t.disassemble s.pc = some i) (hu : Enqueues t i s u)
    (hnew : u ∉ (analyzeBlocks t ctx f start queue).visited) :
    ∃ s', DecodePass t (analyzeInit ctx f start queue) s' ∧ s'.pc = u := by
  obtain ⟨s', hn⟩ := (decodeStep t s).next_or_done
  have hwork := hn
  rw [decodeStep_eq_decodeInsn hdec.1 hdec.2.1 hd] at hwork
  obtain ⟨w, hw, hpre⟩ := hp.work_left hn
  rcases (decodeInsn_work hwork).2 u hu with hv | hv
  · exact absurd (hp.visited hn hv) hnew
  · exact exists_pass_of_work hw (hpre.subset hv) hnew

/-- Every address that the analysis goes on to, and does not visit, is decoded without success. -/
theorem Candidate.pass {u : Nat} (h : Candidate t ctx start u)
    (hnew : u ∉ (analyzeBlocks t ctx f start queue).visited) :
    ∃ s, DecodePass t (analyzeInit ctx f start queue) s ∧ s.pc = u := by
  rcases h with rfl | ⟨v, ht, ho⟩
  · exact exists_pass_of_work .refl List.mem_cons_self hnew
  · have hv := (analyzeFunction_visited t ctx f start queue v).mpr (.inr ht)
    obtain ⟨s, hp, hdec, rfl⟩ := exists_decodePass hv ht.unvisited
    have hinv := hp.takenInv
    cases ho with
    | fallThrough hd hu hr => exact hp.fallThrough hdec hd hu hr
    | condTarget hd hcat htarget hcode =>
      exact hp.enqueued hdec hd ⟨htarget, hcode, .inl hcat⟩ hnew
    | jumpTarget hd hne hcat htarget hcode hk =>
      refine hp.enqueued hdec hd ⟨htarget, hcode, .inr ⟨hcat, fun h0 => ?_, ?_⟩⟩ hnew
      · exact hne (hinv.first h0 s.pc (.inr rfl))
      · rw [Module.getFunctionForAddress_congr hinv.functions hinv.functionByStart]
        exact hk

/-- **The windows of `AnalyzeFunction`** are at the unvisited mapped addresses that it goes on to. -/
theorem analyzeFunction_window (t : Target) (ctx : AnalysisContext) (f : Function) (start : Nat)
    (queue : List Nat) (w : DecodeWindow) :
    (∃ s, DecodePass t (analyzeInit ctx f start queue) s ∧ decodeWindow t s = some w) ↔
      Candidate t ctx start w.data ∧ w.data ∉ ctx.visited ∧ t.Mapped w.data ∧
        w.dataSz = maxInstructionLength := by
  constructor
  · rintro ⟨s, hp, hs⟩
    obtain ⟨hv, hm, rfl⟩ := decodeWindow_eq_some.mp hs
    have hinv := hp.takenInv
    exact ⟨hinv.candidate s.pc (.inr rfl), fun hold => hv (hinv.old hold), hm, rfl⟩
  · rintro ⟨hc, hold, hm, hsz⟩
    obtain ⟨u, n⟩ := w
    cases hsz
    by_cases hv : u ∈ (analyzeBlocks t ctx f start queue).visited
    · obtain ⟨s, hp, hdec, rfl⟩ := exists_decodePass hv hold
      exact ⟨s, hp, decodeWindow_eq_some.mpr ⟨hdec.1, hm, rfl⟩⟩
    · obtain ⟨s, hp, rfl⟩ := hc.pass hv
      have hpc : s.pc ∉ s.visited := fun h => (hp.takenInv.taken s.pc h).elim hold fun ht =>
        hv ((analyzeFunction_visited t ctx f start queue s.pc).mpr (.inr ht))
      exact ⟨s, hp, decodeWindow_eq_some.mpr ⟨hpc, hm, rfl⟩⟩

end

/-! ## The passes of the sweep -/

/-- The sweep over the range comes to the address: from the start on, byte by byte over what was
visited or does not decode, and from instruction to instruction over the rest. -/
inductive SweepsTo (t : Target) (visited : Finset Nat) (range : Nat × Nat) : Nat → Prop
  | start : SweepsTo t visited range range.1
  | byte {a : Nat} : SweepsTo t visited range a → a < range.2 →
      a ∈ visited ∨ t.disassemble a = none → SweepsTo t visited range (addrAdd a 1)
  | insn {a : Nat} {i : ExtendedInstruction} : SweepsTo t visited range a → a < range.2 →
      a ∉ visited → t.disassemble a = some i → SweepsTo t visited range i.next

section

variable {t : Target} {ctx : AnalysisContext} {stop : Nat} {s s' : SweepState}

/-- What a pass of the sweep does to the address. -/
theorem sweepStep_next (hn : sweepStep t ctx stop s = .next s') : s.addr < stop ∧
    (((s.addr ∈ ctx.visited ∨ t.disassemble s.addr = none) ∧ s'.addr = addrAdd s.addr 1) ∨
      (s.addr ∉ ctx.visited ∧ ∃ i, t.disassemble s.addr = some i ∧ s'.addr = i.next)) := by
  unfold sweepStep at hn
  split at hn
  · cases hn
  · rename_i hs
    refine ⟨Nat.not_le.mp hs, ?_⟩
    split at hn
    · rename_i hv
      cases hn
      exact .inl ⟨.inl hv, rfl⟩
    · rename_i hv
      split at hn
      · rename_i hd
        cases hn
        exact .inl ⟨.inr hd, rfl⟩
      · rename_i i hd
        cases hn
        exact .inr ⟨hv, i, hd, rfl⟩

/-- Before the end of the range the sweep goes on. -/
theorem sweepStep_goesOn (t : Target) (ctx : AnalysisContext) (hs : s.addr < stop) :
    ∃ s', sweepStep t ctx stop s = .next s' := by
  unfold sweepStep
  rw [if_neg (Nat.not_le.mpr hs)]
  split
  · exact ⟨_, rfl⟩
  · split
    · exact ⟨_, rfl⟩
    · exact ⟨_, rfl⟩

theorem sweep_reaches_iff (t : Target) (ctx : AnalysisContext) (range : Nat × Nat)
    (queue : List Nat) (a : Nat) :
    (∃ s, Loop.Reaches (sweepStep t ctx range.2) ⟨range.1, queue⟩ s ∧ s.addr = a) ↔
      SweepsTo t ctx.visited range a := by
  constructor
  · rintro ⟨s, hr, rfl⟩
    refine hr.inv (I := fun s => SweepsTo t ctx.visited range s.addr) .start fun s s' _ hs hn => ?_
    obtain ⟨hlt, ⟨hskip, heq⟩ | ⟨hv, i, hd, heq⟩⟩ := sweepStep_next hn
    · rw [heq]
      exact hs.byte hlt hskip
    · rw [heq]
      exact hs.insn hlt hv hd
  · intro h
    induction h with
    | start => exact ⟨_, .refl, rfl⟩
    | byte _ hlt hskip ih =>
      obtain ⟨s, hr, rfl⟩ := ih
      obtain ⟨s', hn⟩ := sweepStep_goesOn t ctx hlt
      obtain ⟨-, ⟨-, heq⟩ | ⟨hv, i, hd, -⟩⟩ := sweepStep_next hn
      · exact ⟨s', hr.tail hn, heq⟩
      · rcases hskip with h | h
        · exact absurd h hv
        · rw [hd] at h
          cases h
    | insn _ hlt hv hd ih =>
      obtain ⟨s, hr, rfl⟩ := ih
      obtain ⟨s', hn⟩ := sweepStep_goesOn t ctx hlt
      obtain ⟨-, ⟨h | h, -⟩ | ⟨-, j, hj, heq⟩⟩ := sweepStep_next hn
      · exact absurd h hv
      · rw [hd] at h
        cases h
      · rw [hd] at hj
        cases hj
        exact ⟨s', hr.tail hn, heq⟩

/-- Where the ranges are mapped, the sweep does not go below the mapping. -/
theorem SweepsTo.base_le {visited : Finset Nat} {range : Nat × Nat} {a : Nat}
    (h : SweepsTo t visited range a) (hbase : t.loader.currentImageBase ≤ range.1)
    (hstop : range.2 ≤ t.loader.imageEnd) : t.loader.currentImageBase ≤ a := by
  have htop := t.loader.belowTop
  unfold FileLoader.imageEnd at hstop
  induction h with
  | start => exact hbase
  | byte _ hlt _ ih =>
    rw [addrAdd_of_lt (by omega)]
    exact Nat.le_succ_of_le ih
  | insn _ hlt _ hd ih =>
    rw [Target.next_eq hd (by unfold FileLoader.imageEnd; omega)]
    exact Nat.le_add_right_of_le ih

end

/-! ## The windows of a call -/

/-- A window at the address reaches past the end of the mapping. -/
def Target.NearEnd (t : Target) (a : Nat) : Prop := t.loader.imageEnd < a + maxInstructionLength

instance (t : Target) (a : Nat) : Decidable (t.NearEnd a) := inferInstanceAs (Decidable (_ < _))

theorem inside_iff {t : Target} {a : Nat} (ha : t.loader.currentImageBase ≤ a) :
    DecodeWindow.Inside t ⟨a, maxInstructionLength⟩ ↔ ¬ t.NearEnd a :=
  ⟨fun h => Nat.not_lt.mpr h.2, fun h => ⟨ha, Nat.not_lt.mp h⟩⟩

namespace RebuilderCall

/-- The call hands the window to the decoder, in a pass of `AnalyzeFunction` or of the sweep. -/
inductive Hands (t : Target) (call : RebuilderCall) (ctx : AnalysisContext) (w : DecodeWindow) :
    Prop
  | analyze {s : ExploreState} {start : Nat} {rest : List Nat} {r : AnalyzeState} :
      call.TakesUp t ctx s start rest →
      DecodePass t (analyzeInit s.context (newFunction start) start rest) r →
      decodeWindow t r = some w → Hands t call ctx w
  | sweep {s₀ : ExploreState} {before after : List (Nat × Nat)} {range : Nat × Nat}
      {r : SweepState} : call.start t ctx = some s₀ →
      t.loader.executableSections = before ++ range :: after →
      Loop.Reaches (sweepStep t (descended t false s₀).context range.2)
        ⟨range.1, before.foldl (sweepRange t (descended t false s₀).context)
          (descended t false s₀).functionWork⟩ r →
      sweepWindow (descended t false s₀).context range.2 r = some w → Hands t call ctx w

section

variable {t : Target} {memory : Nat → UInt8} {call : RebuilderCall} {ctx : AnalysisContext}

/-- The sweep reads the bytes of its windows only. -/
theorem swept_withMemory {s₀ : ExploreState} (hs : call.start t ctx = some s₀)
    (h : ∀ w, call.Hands t ctx w → w.Agree t.loader.memory memory) :
    swept (t.withMemory memory) (descended t false s₀) = swept t (descended t false s₀) :=
  congrArg (ExploreState.mk (descended t false s₀).context)
    (sweepRanges_withMemory _ [] fun _ _ _ _ _ hsplit hr hw => h _ (.sweep hs hsplit hr hw))

/-- **A call reads the bytes of its windows only**: other bytes elsewhere do not change it. -/
theorem apply_withMemory (h : ∀ w, call.Hands t ctx w → w.Agree t.loader.memory memory) :
    call.apply (t.withMemory memory) ctx = call.apply t ctx := by
  have hdiscover : ∀ {s : ExploreState} {start : Nat} {rest : List Nat},
      call.TakesUp t ctx s start rest → ∀ mark,
      discoverFunction (t.withMemory memory) mark start { s with functionWork := rest } =
        discoverFunction t mark start { s with functionWork := rest } :=
    fun ht mark => discoverFunction_withMemory mark fun r w hp hw => h w (.analyze ht hp hw)
  rw [apply_eq, apply_eq]
  have hstart : call.start (t.withMemory memory) ctx = call.start t ctx := rfl
  rw [hstart]
  cases hs : call.start t ctx with
  | none => rfl
  | some s₀ =>
    have hdescend : descended (t.withMemory memory) false s₀ = descended t false s₀ :=
      Loop.exec_congr fun s hr => (exploreStep_loop t false).congr
        (exploreStep_loop (t.withMemory memory) false) fun pc rest ht =>
          hdiscover (.inl ⟨hs, hr, ht⟩) _
    have hdrain : linearSweepFallback (t.withMemory memory) (descended t false s₀) =
        linearSweepFallback t (descended t false s₀) := by
      have hloop : Loop.exec (drainStep (t.withMemory memory))
          (exploreFuel t (swept t (descended t false s₀))) (swept t (descended t false s₀)) =
          Loop.exec (drainStep t) (exploreFuel t (swept t (descended t false s₀)))
            (swept t (descended t false s₀)) :=
        Loop.exec_congr fun s hr => (drainStep_loop t).congr (drainStep_loop (t.withMemory memory))
          fun pc rest ht => hdiscover (.inr ⟨hs, hr, ht⟩) _
      show Loop.exec (drainStep (t.withMemory memory))
        (exploreFuel t (swept (t.withMemory memory) (descended t false s₀)))
        (swept (t.withMemory memory) (descended t false s₀)) = _
      rw [swept_withMemory hs h]
      exact hloop
    dsimp only
    rw [hdescend, hdrain]

end

/-- No function that the call takes up goes on to an unvisited address near the end. -/
def AnalyzesClear (t : Target) (call : RebuilderCall) (ctx : AnalysisContext) : Prop :=
  ∀ s start rest, call.TakesUp t ctx s start rest → ∀ a, Candidate t s.context start a →
    a ∉ s.context.visited → t.Mapped a → ¬ t.NearEnd a

/-- The sweep comes to no unvisited address near the end. -/
def SweepsClear (t : Target) (call : RebuilderCall) (ctx : AnalysisContext) : Prop :=
  ∀ s₀, call.start t ctx = some s₀ → ∀ range ∈ t.loader.executableSections, ∀ a,
    SweepsTo t (descended t false s₀).context.visited range a → a < range.2 →
      a ∉ (descended t false s₀).context.visited → ¬ t.NearEnd a

/-- **The decoder sees only mapped bytes** in a call exactly when neither `AnalyzeFunction` nor the
sweep comes to an unvisited address in the last 14 bytes of the mapping. -/
theorem windows_inside_iff (t : Target) (call : RebuilderCall) (ctx : AnalysisContext)
    (hranges : ∀ range ∈ t.loader.executableSections,
      t.loader.currentImageBase ≤ range.1 ∧ range.2 ≤ t.loader.imageEnd) :
    (∀ w, call.Hands t ctx w → w.Inside t) ↔
      call.AnalyzesClear t ctx ∧ call.SweepsClear t ctx := by
  constructor
  · intro h
    refine ⟨fun s start rest ht a hc hv hm => ?_, fun s₀ hs range hr a ha hlt hv => ?_⟩
    · obtain ⟨r, hp, hw⟩ := (analyzeFunction_window t s.context (newFunction start) start rest
        ⟨a, maxInstructionLength⟩).mpr ⟨hc, hv, hm, rfl⟩
      exact (inside_iff hm.1).mp (h _ (.analyze ht hp hw))
    · obtain ⟨before, after, hsplit⟩ := List.append_of_mem hr
      obtain ⟨r, hreach, rfl⟩ := (sweep_reaches_iff t (descended t false s₀).context range
        (before.foldl (sweepRange t (descended t false s₀).context)
          (descended t false s₀).functionWork) a).mpr ha
      have hw := h _ (.sweep hs hsplit hreach (sweepWindow_eq_some.mpr ⟨hlt, hv, rfl⟩))
      exact Nat.not_lt.mpr hw.2
  · rintro ⟨hanalyze, hsweep⟩ w hw
    cases hw with
    | analyze ht hp hw =>
      obtain ⟨hc, hv, hm, hsz⟩ := (analyzeFunction_window t _ _ _ _ w).mp ⟨_, hp, hw⟩
      obtain ⟨a, n⟩ := w
      cases hsz
      exact (inside_iff hm.1).mpr (hanalyze _ _ _ ht a hc hv hm)
    | sweep hs hsplit hreach hw =>
      rename_i s₀ before after range r
      obtain ⟨hlt, hv, rfl⟩ := sweepWindow_eq_some.mp hw
      have hmem : range ∈ t.loader.executableSections := by
        rw [hsplit]
        exact List.mem_append_right _ List.mem_cons_self
      have ha := (sweep_reaches_iff t _ range _ r.addr).mp ⟨r, hreach, rfl⟩
      have hbase := ha.base_le (hranges range hmem).1 (hranges range hmem).2
      exact (inside_iff hbase).mpr (hsweep s₀ hs range hmem r.addr ha hlt hv)

/-- Where the decoder sees only mapped bytes, what lies outside of the mapping does not matter. -/
theorem apply_of_inside {t : Target} {call : RebuilderCall} {ctx : AnalysisContext}
    {memory : Nat → UInt8} (hin : ∀ w, call.Hands t ctx w → w.Inside t)
    (h : ∀ a, t.Mapped a → memory a = t.loader.memory a) :
    call.apply (t.withMemory memory) ctx = call.apply t ctx :=
  apply_withMemory fun w hw a h1 h2 =>
    h a ⟨(hin w hw).1.trans h1, Nat.lt_of_lt_of_le h2 (hin w hw).2⟩

/-- `ret`, and data behind it that is longer than a window. -/
def retBeforeData : Target :=
  { sampleTarget [0xC3] with
    loader :=
      { (sampleTarget [0xC3]).loader with
        mappedSize := 32
        belowTop := by decide } }

theorem retBeforeData_takesUp {s : ExploreState} {start : Nat} {rest : List Nat}
    (h : run.TakesUp retBeforeData (freshContext {}) s start rest) : start = 0x1000 := by
  have hhead : ∀ {filter : Nat → Prop}, ReWizard.TakesUp filter s start rest →
      s.functionWork.all (· = 0x1000) = true → start = 0x1000 := by
    intro filter ht hall
    rw [ht.queue] at hall
    exact of_decide_eq_true (Bool.and_eq_true_iff.mp hall).1
  rcases h with ⟨hs, hr, ht⟩ | ⟨hs, hr, ht⟩
  · cases hs
    have hcheck : Loop.check (exploreStep retBeforeData false)
        (fun s => s.functionWork.all (· = 0x1000)) 3
        ⟨freshContext {}, queue retBeforeData (freshContext {}) 0⟩ = true := by
      decide +kernel
    have hall := Loop.Reaches.of_check hcheck hr
    exact hhead ht hall
  · cases hs
    have hcheck : Loop.check (drainStep retBeforeData)
        (fun s => s.functionWork.all (· = 0x1000)) 3 (swept retBeforeData (descended retBeforeData
          false ⟨freshContext {}, queue retBeforeData (freshContext {}) 0⟩)) = true := by
      decide +kernel
    have hall := Loop.Reaches.of_check hcheck hr
    exact hhead ht hall

theorem retBeforeData_hands :
    run.Hands retBeforeData (freshContext {}) ⟨0x1000, maxInstructionLength⟩ := by
  have hqueue : queue retBeforeData (freshContext {}) 0 = [0x1000] := by decide +kernel
  have ht : ReWizard.TakesUp (fun a => retBeforeData.loader.isExecutableAddress a = true)
      ⟨freshContext {}, queue retBeforeData (freshContext {}) 0⟩ 0x1000 [] :=
    ⟨hqueue, by decide, by decide, by decide⟩
  exact .analyze (.inl ⟨rfl, .refl, ht⟩) ⟨.refl, rfl, by decide, .refl⟩
    (decodeWindow_eq_some.mpr ⟨by decide, by decide, rfl⟩)

/-- The data does not decode, and the window of the `ret` ends in it. -/
theorem retBeforeData_windows_inside :
    (∃ w, run.Hands retBeforeData (freshContext {}) w) ∧
      ∀ w, run.Hands retBeforeData (freshContext {}) w → w.Inside retBeforeData := by
  refine ⟨⟨_, retBeforeData_hands⟩, ?_⟩
  have hdecodes : ∀ k < 32, ∀ i ∈ retBeforeData.disassemble (0x1000 + k),
      i.instruction.category = .ret := by
    decide +kernel
  have hret : ∀ v, retBeforeData.Mapped v → ∀ i, retBeforeData.disassemble v = some i →
      i.instruction.category = .ret := by
    intro v hm i hd
    have hle : 0x1000 ≤ v := hm.1
    have hlt : v < 0x1020 := hm.2
    exact hdecodes (v - 0x1000) (by omega) i (by rw [Nat.add_sub_cancel' hle]; exact hd)
  refine (windows_inside_iff retBeforeData .run (freshContext {}) (by decide)).mpr
    ⟨fun s start rest ht a ha _ _ => ?_, fun s₀ _ range hrange a ha hlt _ => ?_⟩
  · rcases ha with rfl | ⟨v, hv, ho⟩
    · rw [retBeforeData_takesUp ht]
      decide
    · -- nothing goes on from a `ret`
      have hm : retBeforeData.Mapped v := by
        cases hv with
        | start _ hd => exact hd.1
        | onward _ _ _ hd => exact hd.1
      cases ho with
      | fallThrough hd _ hcat => exact absurd (hret v hm _ hd) hcat
      | condTarget hd hcat => rw [hret v hm _ hd] at hcat; cases hcat
      | jumpTarget hd _ hcat => rw [hret v hm _ hd] at hcat; cases hcat
  · cases List.mem_singleton.mp hrange
    have hle := ha.base_le (by decide) (by decide)
    have hbase : 0x1000 ≤ a := hle
    have hlast : a < 0x1001 := hlt
    obtain rfl : a = 0x1000 := by omega
    decide

/-- `ret`, which is all that is mapped: the decoder gets 14 bytes behind it. -/
theorem ret_window_outside : ¬ ∀ w,
    RebuilderCall.run.Hands (sampleTarget [0xC3]) (freshContext {}) w →
      w.Inside (sampleTarget [0xC3]) := by
  intro h
  have hqueue : queue (sampleTarget [0xC3]) (freshContext {}) 0 = [0x1000] := by decide +kernel
  have ht : ReWizard.TakesUp (fun a => (sampleTarget [0xC3]).loader.isExecutableAddress a = true)
      ⟨freshContext {}, queue (sampleTarget [0xC3]) (freshContext {}) 0⟩ 0x1000 [] :=
    ⟨hqueue, by decide, by decide, by decide⟩
  have hw := h ⟨0x1000, maxInstructionLength⟩ (.analyze (.inl ⟨rfl, .refl, ht⟩)
    ⟨.refl, rfl, by decide, .refl⟩ (decodeWindow_eq_some.mpr ⟨by decide, by decide, rfl⟩))
  exact absurd hw.2 (by decide)

end RebuilderCall

end ReWizard
