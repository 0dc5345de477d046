import Nyaux.Elf.StackBytes

/-! When the stack of a new thread has the System V layout.

The loader pushes the addresses of the caller's two arrays, not what is in these, and the
auxiliary vector tells of the file that names the last interpreter of the chain. -/

namespace Nyaux.Elf

open Word Memory Paging Fs Mm ByteMap

/-- The words the loader leaves on the stack, from `argc` on. -/
def ElfArgs.words (args : ElfArgs) : List Nat :=
  (args.argc % 2 ^ 64).toNat :: ((if args.argv ≠ 0 then [args.argv] else []) ++
    0 :: ((if args.envp ≠ 0 then [args.envp] else []) ++
      0 :: 5 :: args.phnum :: 4 :: args.phent :: 3 :: args.phdrVirt ::
        ((if args.entry ≠ 0 then [9, args.entry] else []) ++ [0, 0])))

theorem pushes_flatten (args : ElfArgs) :
    args.pushes.reverse.flatten = args.words.flatMap (leBytes 8) := by
  unfold ElfArgs.pushes ElfArgs.words
  by_cases entry : args.entry = 0 <;> by_cases envp : args.envp = 0 <;>
    by_cases argv : args.argv = 0 <;>
      simp only [entry, envp, argv, ne_eq, not_true_eq_false, not_false_eq_true, if_true, if_false,
        auxvec, List.reverse_cons, List.reverse_nil, List.flatten_cons, List.flatten_nil,
        List.flatMap_cons, List.flatMap_nil, List.nil_append, List.append_nil, List.cons_append,
        List.append_assoc]

theorem pushedSize_reverse (pushes : List (List UInt8)) :
    pushedSize pushes = pushes.reverse.flatten.length := by
  rw [List.length_flatten, List.map_reverse, List.sum_reverse, pushedSize]

section Thread

variable {offset xsaveSize entryFunc : Nat} {pages : List Nat} {stock : Mem → List Slab → Prop}
  {args : ElfArgs} {s s' : ProcessState} {thread : NewThread}

def NewThread.rsp (thread : NewThread) : Nat := thread.context.frame.rsp.toNat

theorem startThread_layout (user : s.User offset pages stock) (direct : Direct offset pages)
    (stable : ∀ c, Stable stock c)
    (room : ∀ mem block, Served stock mem (cacheFor 88) block →
      mem (block + 80) + pushedSize args.pushes ≤ 512000)
    (ran : s.startThread offset xsaveSize entryFunc args = .ok (thread, s')) :
    thread.rsp % 16 = 0 ∧ newThreadStack ≤ thread.rsp ∧ thread.rsp < stackTop ∧
      (∀ virt, newThreadStack ≤ virt → virt < stackTop → s'.byte offset virt ≠ none) ∧
      Holds offset s'.map.pml4 s'.kernel.mem thread.rsp (args.words.flatMap (leBytes 8)) := by
  have nodes := stable (cacheFor 32)
  have top := stackTop_eq
  have bottom : newThreadStack = 0x70000000000 := rfl
  obtain ⟨mem, block, k, window, mem₁, window', mem', served, fresh, pushed, aligned, rsp, rfl⟩ :=
    startThread_inv user direct stable ran
  obtain ⟨tables, own, user₁⟩ := fresh.user
  have fits := room mem block served
  obtain ⟨size, user₂, write₂⟩ := pushAll_spec user₁ direct.usable nodes fits pushed
  obtain ⟨user₃, write₃⟩ := alignWindow_spec user₂ direct.usable nodes (by omega) aligned
  have laid := pushAll_holds user₁ direct.usable nodes fits (Nat.zero_le _) Holds.nil pushed
  rw [List.append_nil, pushes_flatten] at laid
  have length : pushedSize args.pushes = (args.words.flatMap (leBytes 8)).length := by
    rw [pushedSize_reverse, pushes_flatten]
  have pushes : 0 < pushedSize args.pushes := by
    rw [length, ElfArgs.words, List.flatMap_cons, List.length_append, leBytes_length]
    omega
  obtain ⟨grown, inside, multiple, holds⟩ :=
    alignWindow_holds user₂ direct.usable nodes (by omega) (by omega) laid aligned
  have place : thread.rsp = stackTop - window' := by
    rw [NewThread.rsp, rsp, BitVec.toNat_sub, BitVec.toNat_ofNat, BitVec.toNat_ofNat,
      Nat.mod_eq_of_lt (a := stackTop) (by omega), Nat.mod_eq_of_lt (a := window') (by omega)]
    omega
  rw [place]
  refine ⟨by omega, by omega, by omega, fun virt above below => ?_, holds⟩
  have low : virt < 2 ^ 47 := by omega
  apply (write₂.trans write₃).mapped virt low
  rw [fresh.mapped virt low (stack_covers virt above below)]
  exact Option.some_ne_none 0

end Thread

/-! The layout that is claimed of these words. -/

/-- The words from `argc` to the type of `AT_NULL`. -/
def parameters (argv envp : List Nat) (aux : List (Nat × Nat)) : List Nat :=
  argv.length :: (argv ++ 0 :: (envp ++ 0 :: (aux.flatMap (fun a => [a.1, a.2]) ++ [0])))

def HeadersAt (base : Nat) (file : Vnode) (virt : Nat) : Prop :=
  (∃ phdr ∈ phdrs file, phdr.pType = 6 ∧ virt = add64 base phdr.pVaddr) ∨
    ∃ phdr ∈ loadHeaders (phdrs file), phdr.pOffset ≤ (readHdr file).ePhoff ∧
      (readHdr file).ePhoff < phdr.pOffset + phdr.pFilesz ∧
      virt = add64 base (add64 phdr.pVaddr ((readHdr file).ePhoff - phdr.pOffset))

/-- `AT_PHDR`, `AT_PHENT`, `AT_PHNUM` and `AT_ENTRY` of a program. -/
structure Describes (base : Nat) (file : Vnode) (aux : List (Nat × Nat)) : Prop where
  phdr : ∃ virt, (3, virt) ∈ aux ∧ HeadersAt base file virt
  phent : (4, (readHdr file).ePhentsize) ∈ aux
  phnum : (5, (readHdr file).ePhnum) ∈ aux
  entry : (9, add64 base (entryPoint file)) ∈ aux

/-- The stack that the System V ABI promises to a program. -/
structure SystemVStack (offset base : Nat) (file : Vnode) (argv envp : List Nat)
    (thread : NewThread) (s : ProcessState) : Prop where
  aligned : thread.rsp % 16 = 0
  inside : newThreadStack ≤ thread.rsp ∧ thread.rsp < stackTop
  mapped : ∀ virt, newThreadStack ≤ virt → virt < stackTop → s.byte offset virt ≠ none
  decodes : ∃ aux : List (Nat × Nat), (∀ a ∈ aux, a.1 ≠ 0) ∧
    (∀ i w, (parameters argv envp aux)[i]? = some w → s.word offset (thread.rsp + 8 * i) = some w) ∧
    Describes base file aux

/-- What the caller passes, with the pointers in its two arrays. -/
structure Arguments (args : ElfArgs) (argv envp : List Nat) : Prop where
  argc : args.argc = argv.length
  int : argv.length < 2 ^ 31
  strings : ∀ pointer ∈ argv ++ envp, pointer ≠ 0
  noArgv : args.argv = 0 → argv = []
  noEnvp : args.envp = 0 → envp = []
  words : args.argv < 2 ^ 64 ∧ args.envp < 2 ^ 64 ∧ args.entry < 2 ^ 64 ∧ args.phdrVirt < 2 ^ 64 ∧
    args.phent < 2 ^ 64 ∧ args.phnum < 2 ^ 64

def ElfArgs.vectors (args : ElfArgs) : List (Nat × Nat) :=
  (5, args.phnum) :: (4, args.phent) :: (3, args.phdrVirt) ::
    (if args.entry ≠ 0 then [(9, args.entry)] else [])

/-- The last values that `load_elf_program` is called with tell of the program. -/
structure Tells (base : Nat) (file : Vnode) (args : ElfArgs) : Prop where
  entered : args.entry ≠ 0
  entry : args.entry = add64 base (entryPoint file)
  phent : args.phent = (readHdr file).ePhentsize
  phnum : args.phnum = (readHdr file).ePhnum
  phdr : HeadersAt base file args.phdrVirt

section Layout

variable {base p : Nat} {file : Vnode} {args : ElfArgs} {argv envp strings : List Nat}
  {aux pushed : List (Nat × Nat)} {first second : List Nat}

theorem describes_vectors : Describes base file args.vectors ↔ Tells base file args := by
  by_cases entry : args.entry = 0
  · constructor
    · rintro ⟨-, -, -, member⟩
      simp [ElfArgs.vectors, entry] at member
    · exact fun tells => absurd entry tells.entered
  · constructor
    · rintro ⟨⟨virt, member, headers⟩, phent, phnum, entered⟩
      simp [ElfArgs.vectors, entry] at member phent phnum entered
      exact ⟨entry, entered.symm, phent.symm, phnum.symm, member ▸ headers⟩
    · rintro ⟨entered, same, phent, phnum, headers⟩
      exact ⟨⟨args.phdrVirt, by simp [ElfArgs.vectors], headers⟩, by simp [ElfArgs.vectors, phent],
        by simp [ElfArgs.vectors, phnum], by simp [ElfArgs.vectors, entered, ← same]⟩

def SameWords (first second : List Nat) : Prop :=
  ∀ (i a b : Nat), first[i]? = some a → second[i]? = some b → a = b

theorem SameWords.cons {a b : Nat} (same : SameWords (a :: first) (b :: second)) :
    a = b ∧ SameWords first second :=
  ⟨same 0 a b rfl rfl, fun i c d inFirst inSecond => same (i + 1) c d inFirst inSecond⟩

theorem SameWords.pointers (nonzero : ∀ q ∈ strings, q ≠ 0) (null : p = 0 → strings = [])
    (same : SameWords (strings ++ 0 :: first) ((if p ≠ 0 then [p] else []) ++ 0 :: second)) :
    (p = 0 ∨ strings = [p]) ∧ SameWords first second := by
  by_cases zero : p = 0
  · rw [null zero, if_neg (not_not.mpr zero)] at same
    exact ⟨Or.inl zero, same.cons.2⟩
  · rw [if_pos zero] at same
    match strings, nonzero, same with
    | [], _, same => exact absurd same.cons.1.symm zero
    | [q], _, same =>
        obtain ⟨rfl, later⟩ := same.cons
        exact ⟨Or.inr rfl, later.cons.2⟩
    | q :: r :: rest, nonzero, same =>
        exact absurd same.cons.2.cons.1 (nonzero r (by simp))

theorem SameWords.vectors {tail : List Nat} (types : ∀ a ∈ aux, a.1 ≠ 0)
    (types' : ∀ a ∈ pushed, a.1 ≠ 0)
    (same : SameWords (aux.flatMap (fun a => [a.1, a.2]) ++ [0])
      (pushed.flatMap (fun a => [a.1, a.2]) ++ 0 :: tail)) : aux = pushed := by
  induction aux generalizing pushed with
  | nil =>
      cases pushed with
      | nil => rfl
      | cons v rest => exact absurd same.cons.1.symm (types' v List.mem_cons_self)
  | cons a rest ih =>
      cases pushed with
      | nil => exact absurd same.cons.1 (types a List.mem_cons_self)
      | cons v others =>
          obtain ⟨type, value⟩ := same.cons
          obtain ⟨value, later⟩ := value.cons
          rw [ih (fun b member => types b (List.mem_cons_of_mem a member))
            (fun b member => types' b (List.mem_cons_of_mem v member)) later, Prod.ext type value]

theorem vectors_types (a : Nat × Nat) (member : a ∈ args.vectors) : a.1 ≠ 0 := by
  unfold ElfArgs.vectors at member
  split at member
  · simp only [List.mem_cons, List.not_mem_nil, or_false] at member
    rcases member with rfl | rfl | rfl | rfl <;> simp
  · simp only [List.mem_cons, List.not_mem_nil, or_false] at member
    rcases member with rfl | rfl | rfl <;> simp

theorem words_eq (passed : Arguments args argv envp) : args.words =
    argv.length :: ((if args.argv ≠ 0 then [args.argv] else []) ++
      0 :: ((if args.envp ≠ 0 then [args.envp] else []) ++
        0 :: (args.vectors.flatMap (fun a => [a.1, a.2]) ++ [0, 0]))) := by
  have count : (args.argc % 2 ^ 64).toNat = argv.length := by
    have int := passed.int
    rw [passed.argc]
    omega
  rw [ElfArgs.words, count, ElfArgs.vectors]
  by_cases entry : args.entry = 0 <;> simp [entry]

theorem pointers_eq (null : p = 0 → strings = []) (one : p = 0 ∨ strings = [p]) :
    (if p ≠ 0 then [p] else []) = strings := by
  by_cases zero : p = 0
  · rw [if_neg (not_not.mpr zero), null zero]
  · rw [if_pos zero, one.resolve_left zero]

theorem arrays_of_decodes (passed : Arguments args argv envp) (types : ∀ a ∈ aux, a.1 ≠ 0)
    (same : SameWords (parameters argv envp aux) args.words) :
    (args.argv = 0 ∨ argv = [args.argv]) ∧ (args.envp = 0 ∨ envp = [args.envp]) ∧
      aux = args.vectors := by
  rw [words_eq passed] at same
  obtain ⟨-, same⟩ := same.cons
  obtain ⟨argvOne, same⟩ := same.pointers
    (fun q member => passed.strings q (List.mem_append_left envp member)) passed.noArgv
  obtain ⟨envpOne, same⟩ := same.pointers
    (fun q member => passed.strings q (List.mem_append_right argv member)) passed.noEnvp
  exact ⟨argvOne, envpOne, same.vectors types vectors_types⟩

theorem parameters_prefix (passed : Arguments args argv envp)
    (argvOne : args.argv = 0 ∨ argv = [args.argv]) (envpOne : args.envp = 0 ∨ envp = [args.envp]) :
    parameters argv envp args.vectors ++ [0] = args.words := by
  rw [words_eq passed, pointers_eq passed.noArgv argvOne, pointers_eq passed.noEnvp envpOne]
  simp [parameters]

end Layout

/-! The values handed on to the interpreter. -/

/-- A program and its interpreters, each with its load base. -/
def programs (lookup : List UInt8 → Option Vnode) (scratch : List UInt8) :
    Nat → Nat → Vnode → List (Nat × Vnode)
  | 0, _, _ => []
  | fuel + 1, base, file =>
      (base, file) ::
        match interpPath file (phdrs file) (false, scratch) with
        | some (true, path) =>
            match lookup path with
            | some interp => programs lookup scratch fuel 0x40000000 interp
            | none => []
        | _ => []

def storedOf (base stored : Nat) (headers : List Elf64Phdr) : Nat :=
  headers.foldl (fun stored phdr => if phdr.pType = 6 then add64 base phdr.pVaddr else stored) stored

def ElfArgs.after (stored : Nat) (args : ElfArgs) (program : Nat × Vnode) : ElfArgs where
  argc := args.argc
  argv := args.argv
  envp := args.envp
  entry := add64 program.1 (entryPoint program.2)
  phdrVirt := storedOf program.1 stored (phdrs program.2)
  phent := (readHdr program.2).ePhentsize
  phnum := (readHdr program.2).ePhnum

/-- The arguments of the call for the last program of a chain. -/
def lastArgs (stored : Nat) (args : ElfArgs) (chain : List (Nat × Vnode)) : ElfArgs :=
  chain.dropLast.foldl (ElfArgs.after stored) args

section Chain

variable {offset xsaveSize : Nat} {pages : List Nat} {stock : Mem → List Slab → Prop}
  {lookup : List UInt8 → Option Vnode} {stored : Nat} {scratch : List UInt8} {fuel base : Nat}
  {file : Vnode} {args : ElfArgs} {argv envp : List Nat} {s s' : ProcessState} {thread : NewThread}

theorem leValue_lt (bytes : List UInt8) : leValue bytes < 256 ^ bytes.length := by
  induction bytes with
  | nil => exact Nat.one_pos
  | cons b rest ih =>
      have small : b.toNat < 256 := b.toNat_lt
      rw [leValue, List.length_cons, pow_succ]
      omega

theorem leField_lt (bytes : List UInt8) (at_ width : Nat) :
    leField bytes at_ width < 256 ^ width :=
  (leValue_lt _).trans_le (Nat.pow_le_pow_right (by decide) (List.length_take_le _ _))

theorem storedOf_lt (small : stored < 2 ^ 64) (headers : List Elf64Phdr) :
    storedOf base stored headers < 2 ^ 64 := by
  induction headers generalizing stored with
  | nil => exact small
  | cons phdr rest ih =>
      apply ih
      dsimp only
      split
      · exact Nat.mod_lt _ (by decide)
      · exact small

theorem Arguments.after (passed : Arguments args argv envp) (small : stored < 2 ^ 64)
    (program : Nat × Vnode) : Arguments (args.after stored program) argv envp := by
  obtain ⟨argvSmall, envpSmall, -⟩ := passed.words
  have phent : (readHdr program.2).ePhentsize < 2 ^ 64 :=
    (leField_lt _ 54 2).trans_le (by decide)
  have phnum : (readHdr program.2).ePhnum < 2 ^ 64 := (leField_lt _ 56 2).trans_le (by decide)
  exact ⟨passed.argc, passed.int, passed.strings, passed.noArgv, passed.noEnvp, argvSmall, envpSmall,
    Nat.mod_lt _ (by decide), storedOf_lt small _, phent, phnum⟩

theorem lastArgs_spec (passed : Arguments args argv envp) (small : stored < 2 ^ 64)
    (chain : List (Nat × Vnode)) : Arguments (lastArgs stored args chain) argv envp ∧
      (lastArgs stored args chain).argv = args.argv ∧
      (lastArgs stored args chain).envp = args.envp := by
  unfold lastArgs
  induction chain.dropLast generalizing args with
  | nil => exact ⟨passed, rfl, rfl⟩
  | cons program rest ih => exact ih (passed.after small program)

theorem headers_left (headers : List Elf64Phdr) {h h' : Headers}
    (ran : headers.foldlM (Headers.step offset base file) h = .ok h') :
    interpPath file headers (h.interp, h.path) = some (h'.interp, h'.path) ∧
      h'.stored = storedOf base h.stored headers := by
  induction headers generalizing h with
  | nil =>
      obtain rfl := Except.ok.inj ran
      exact ⟨rfl, rfl⟩
  | cons phdr rest ih =>
      rw [List.foldlM_cons] at ran
      obtain ⟨h₁, step, ran⟩ := of_bind_ok ran
      obtain ⟨path, last⟩ := ih ran
      rw [storedOf, List.foldl_cons, interpPath]
      rcases h.step_cases step with ⟨load, process, -, rfl⟩ | ⟨table, rfl⟩ |
        ⟨interp, bytes, read, rfl⟩ | ⟨-, noTable, noInterp, rfl⟩
      · rw [load, if_neg (by decide), if_neg (by decide)]
        exact ⟨path, last⟩
      · rw [table, if_neg (by decide), if_pos rfl]
        exact ⟨path, last⟩
      · rw [interp, if_pos rfl, if_neg (by decide), read]
        exact ⟨path, last⟩
      · rw [if_neg noInterp, if_neg noTable]
        exact ⟨path, last⟩

theorem loadElfProgram_starts (direct : Direct offset pages) (nodes : Stable stock (cacheFor 32))
    (user : s.User offset pages stock)
    (segments : ∀ program ∈ programs lookup scratch fuel base file,
      ∀ phdr ∈ loadHeaders (phdrs program.2), UserSegment program.1 program.2 phdr)
    (ran : s.loadElfProgram offset xsaveSize lookup stored scratch fuel base file args =
      .ok (some thread, s')) :
    ∃ (s₁ : ProcessState) (entryFunc : Nat), s₁.User offset pages stock ∧
      s₁.startThread offset xsaveSize entryFunc (lastArgs stored args
        (programs lookup scratch fuel base file)) = .ok (thread, s') := by
  induction fuel generalizing base file args s with
  | zero => cases ran
  | succ fuel ih =>
      rw [ProcessState.loadElfProgram] at ran
      split at ran
      case isFalse => cases ran
      obtain ⟨h, headers, ran⟩ := of_bind_ok ran
      obtain ⟨path, last⟩ := headers_left _ headers
      obtain ⟨-, user₁, -⟩ := headers_spec direct nodes (phdrs file)
        (segments (base, file) List.mem_cons_self) user headers
      dsimp only at path last
      rw [programs, path] at segments ⊢
      cases interp : h.interp with
      | true =>
          rw [interp, if_pos rfl] at ran
          rw [interp] at segments
          dsimp only at segments ⊢
          cases found : lookup h.path with
          | none =>
              rw [found] at ran
              cases ran
          | some next =>
              rw [found] at ran segments
              dsimp only at ran segments ⊢
              have more : programs lookup scratch fuel 0x40000000 next ≠ [] := by
                cases fuel with
                | zero => cases ran
                | succ fuel => exact List.cons_ne_nil _ _
              obtain ⟨s₁, entryFunc, user', started⟩ := ih user₁
                (fun program member => segments program (List.mem_cons_of_mem _ member)) ran
              refine ⟨s₁, entryFunc, user', ?_⟩
              rw [lastArgs, List.dropLast_cons_of_ne_nil more, List.foldl_cons, ElfArgs.after, ← last]
              exact started
      | false =>
          rw [interp, if_neg Bool.false_ne_true] at ran
          obtain ⟨⟨thread', s''⟩, started, returned⟩ := of_bind_ok ran
          obtain ⟨same, rfl⟩ := Prod.mk.inj (Except.ok.inj returned)
          obtain rfl := Option.some.inj same
          exact ⟨h.process, add64 base (entryPoint file), user₁, started⟩

theorem words_lt (passed : Arguments args argv envp) (w : Nat) (member : w ∈ args.words) :
    w < 2 ^ 64 := by
  obtain ⟨argvSmall, envpSmall, entry, phdr, phent, phnum⟩ := passed.words
  have optional : ∀ (c : Prop) [Decidable c] (some : List Nat), (∀ v ∈ some, v < 2 ^ 64) →
      ∀ v ∈ (if c then some else []), v < 2 ^ 64 := by
    intro c _ some bound v inside
    split at inside
    · exact bound v inside
    · cases inside
  simp only [ElfArgs.words, List.mem_cons, List.mem_append] at member
  rcases member with rfl | member | rfl | member | rfl | rfl | rfl | rfl | rfl | rfl | rfl | member |
    member
  · omega
  · exact optional _ [args.argv] (by simpa using argvSmall) w member
  · decide
  · exact optional _ [args.envp] (by simpa using envpSmall) w member
  · decide
  · decide
  · exact phnum
  · decide
  · exact phent
  · decide
  · exact phdr
  · exact optional _ [9, args.entry] (by simpa using entry) w member
  · rcases member with rfl | rfl | member
    · decide
    · decide
    · cases member

theorem loadElfProgram_layout (direct : Direct offset pages)
    (user : s.User offset pages
      (FreeWords (WindowFits (lastArgs stored args (programs lookup scratch fuel base file)))))
    (segments : ∀ program ∈ programs lookup scratch fuel base file,
      ∀ phdr ∈ loadHeaders (phdrs program.2), UserSegment program.1 program.2 phdr)
    (ran : s.loadElfProgram offset xsaveSize lookup stored scratch fuel base file args =
      .ok (some thread, s')) :
    thread.rsp % 16 = 0 ∧ newThreadStack ≤ thread.rsp ∧ thread.rsp < stackTop ∧
      (∀ virt, newThreadStack ≤ virt → virt < stackTop → s'.byte offset virt ≠ none) ∧
      Holds offset s'.map.pml4 s'.kernel.mem thread.rsp
        ((lastArgs stored args (programs lookup scratch fuel base file)).words.flatMap
          (leBytes 8)) := by
  have zero := windowFits_zero (lastArgs stored args (programs lookup scratch fuel base file))
  have stable := FreeWords.stable zero
  obtain ⟨s₁, entryFunc, user₁, started⟩ :=
    loadElfProgram_starts direct (stable _) user segments ran
  exact startThread_layout user₁ direct stable
    (fun mem block served => served.word zero (by decide) window_inside rfl rfl) started

theorem decodes_iff (passed : Arguments args argv envp) {addr : Nat}
    (holds : Holds offset s.map.pml4 s.kernel.mem addr (args.words.flatMap (leBytes 8))) :
    (∃ aux : List (Nat × Nat), (∀ a ∈ aux, a.1 ≠ 0) ∧ (∀ i w,
        (parameters argv envp aux)[i]? = some w → s.word offset (addr + 8 * i) = some w) ∧
        Describes base file aux) ↔
      (args.argv = 0 ∨ argv = [args.argv]) ∧ (args.envp = 0 ∨ envp = [args.envp]) ∧
        Tells base file args := by
  have read := words_of_holds (words_lt passed) holds
  constructor
  · rintro ⟨aux, types, decoded, describes⟩
    have same : SameWords (parameters argv envp aux) args.words := by
      intro i a b inFirst inSecond
      exact Option.some.inj ((decoded i a inFirst).symm.trans (read i b inSecond))
    obtain ⟨argvOne, envpOne, rfl⟩ := arrays_of_decodes passed types same
    exact ⟨argvOne, envpOne, describes_vectors.mp describes⟩
  · rintro ⟨argvOne, envpOne, tells⟩
    refine ⟨args.vectors, vectors_types, fun i w found => ?_, describes_vectors.mpr tells⟩
    apply read
    rw [← parameters_prefix passed argvOne envpOne,
      List.getElem?_append_left (List.getElem?_eq_some_iff.mp found).1, found]

end Chain

/-- The stack is as the ABI says exactly when each of the caller's arrays is absent or has itself as
its only pointer, and the last call is told of the program: by the caller, or because the program
has an interpreter, which has none, and a header for its headers. -/
theorem system_v_stack_iff (offset xsaveSize : Nat) (pages : List Nat)
    (lookup : List UInt8 → Option Vnode) (stored : Nat) (scratch : List UInt8) (fuel base : Nat)
    (file : Vnode) (args : ElfArgs) (argv envp : List Nat) (s s' : ProcessState) (thread : NewThread)
    (direct : Direct offset pages)
    (user : s.User offset pages
      (FreeWords (WindowFits (lastArgs stored args (programs lookup scratch fuel base file)))))
    (segments : ∀ program ∈ programs lookup scratch fuel base file,
      ∀ phdr ∈ loadHeaders (phdrs program.2), UserSegment program.1 program.2 phdr)
    (passed : Arguments args argv envp) (small : stored < 2 ^ 64)
    (ran : s.loadElfProgram offset xsaveSize lookup stored scratch fuel base file args =
      .ok (some thread, s')) :
    SystemVStack offset base file argv envp thread s' ↔
      (args.argv = 0 ∨ argv = [args.argv]) ∧ (args.envp = 0 ∨ envp = [args.envp]) ∧
        Tells base file (lastArgs stored args (programs lookup scratch fuel base file)) := by
  obtain ⟨last, sameArgv, sameEnvp⟩ :=
    lastArgs_spec passed small (programs lookup scratch fuel base file)
  obtain ⟨aligned, above, below, mapped, holds⟩ := loadElfProgram_layout direct user segments ran
  rw [← sameArgv, ← sameEnvp, ← decodes_iff last holds]
  constructor
  · exact fun stack => stack.decodes
  · exact fun decodes => ⟨aligned, ⟨above, below⟩, mapped, decodes⟩

theorem interpPath_plain (file : Vnode) (headers : List Elf64Phdr)
    (plain : ∀ phdr ∈ headers, phdr.pType ≠ 3) (state : Bool × List UInt8) :
    interpPath file headers state = some state := by
  induction headers with
  | nil => rfl
  | cons phdr rest ih =>
      rw [interpPath, if_neg (plain phdr List.mem_cons_self)]
      exact ih fun other member => plain other (List.mem_cons_of_mem phdr member)

theorem Program.programs {base : Nat} {file : Vnode} (program : Program base file)
    (lookup : List UInt8 → Option Vnode) (scratch : List UInt8) (fuel : Nat) :
    Elf.programs lookup scratch (fuel + 1) base file = [(base, file)] := by
  rw [Elf.programs, interpPath_plain file _ program.plain]

def zeroFilledArgs (argc : Int) (argv : Nat) : ElfArgs := ⟨argc, argv, 0, 0x1000, 0x1040, 56, 1⟩

theorem zeroFilled_tells (argc : Int) (argv : Nat) :
    Tells 0 (headersOnly zeroFilled) (zeroFilledArgs argc argv) := by
  have entry : 0x1000 = add64 0 (entryPoint (headersOnly zeroFilled)) := by decide +kernel
  have phent : 56 = (readHdr (headersOnly zeroFilled)).ePhentsize := by decide +kernel
  have phnum : 1 = (readHdr (headersOnly zeroFilled)).ePhnum := by decide +kernel
  have headers : HeadersAt 0 (headersOnly zeroFilled) 0x1040 :=
    Or.inr ⟨⟨1, 0, 0x1000, 120, 0x1800⟩, by decide +kernel, by decide +kernel, by decide +kernel,
      by decide +kernel⟩
  exact ⟨Nat.succ_ne_zero _, entry, phent, phnum, headers⟩

theorem zeroFilled_segments : ∀ program ∈ programs (fun _ => none) [] 1 0 (headersOnly zeroFilled),
    ∀ phdr ∈ loadHeaders (phdrs program.2), UserSegment program.1 program.2 phdr := by
  rw [zeroFilled_program.programs]
  intro program member phdr inFile
  obtain rfl := List.mem_singleton.mp member
  exact zeroFilled_program.segment inFile

theorem system_v_stack_iff_zero_filled : ∃ (s s' : ProcessState) (thread : NewThread),
    s.loadElfProgram machine.offset 832 (fun _ => none) 0 [] 1 0 (headersOnly zeroFilled)
      (zeroFilledArgs 0 0) = .ok (some thread, s') ∧
    SystemVStack machine.offset 0 (headersOnly zeroFilled) [] [] thread s' := by
  obtain ⟨s, s', thread, user, -, ran⟩ :=
    machine_loads zeroFilled_short zeroFilled_program (by decide +kernel) (zeroFilledArgs 0 0)
  have last : lastArgs 0 (zeroFilledArgs 0 0)
      (programs (fun _ => none) [] 1 0 (headersOnly zeroFilled)) = zeroFilledArgs 0 0 := by
    rw [zeroFilled_program.programs]
    rfl
  have passed : Arguments (zeroFilledArgs 0 0) [] [] := by
    constructor <;> decide
  rw [← last] at user
  refine ⟨s, s', thread, ran, (system_v_stack_iff machine.offset 832 machine.pages (fun _ => none) 0
    [] 1 0 (headersOnly zeroFilled) (zeroFilledArgs 0 0) [] [] s s' thread (pages_direct machine)
    user zeroFilled_segments passed (by decide) ran).mpr ⟨Or.inl rfl, Or.inl rfl, ?_⟩⟩
  rw [last]
  exact zeroFilled_tells 0 0

/-- Two arguments: on the stack is the address of the array, and NULL. -/
theorem arguments_not_on_stack : ∃ (s s' : ProcessState) (thread : NewThread),
    Program 0 (headersOnly zeroFilled) ∧ Arguments (zeroFilledArgs 2 0x500000) [0x500018, 0x50001d] [] ∧
    Tells 0 (headersOnly zeroFilled) (zeroFilledArgs 2 0x500000) ∧
    s.loadElfProgram machine.offset 832 (fun _ => none) 0 [] 1 0 (headersOnly zeroFilled)
      (zeroFilledArgs 2 0x500000) = .ok (some thread, s') ∧
    s'.word machine.offset thread.rsp = some 2 ∧
    s'.word machine.offset (thread.rsp + 8) = some 0x500000 ∧
    s'.word machine.offset (thread.rsp + 16) = some 0 ∧
    ¬SystemVStack machine.offset 0 (headersOnly zeroFilled) [0x500018, 0x50001d] [] thread s' := by
  obtain ⟨s, s', thread, user, -, ran⟩ :=
    machine_loads zeroFilled_short zeroFilled_program (by decide +kernel) (zeroFilledArgs 2 0x500000)
  have last : lastArgs 0 (zeroFilledArgs 2 0x500000)
      (programs (fun _ => none) [] 1 0 (headersOnly zeroFilled)) = zeroFilledArgs 2 0x500000 := by
    rw [zeroFilled_program.programs]
    rfl
  have passed : Arguments (zeroFilledArgs 2 0x500000) [0x500018, 0x50001d] [] := by
    constructor <;> decide
  rw [← last] at user
  obtain ⟨-, -, -, -, holds⟩ :=
    loadElfProgram_layout (pages_direct machine) user zeroFilled_segments ran
  rw [last] at holds
  have read := words_of_holds (words_lt passed) holds
  refine ⟨s, s', thread, zeroFilled_program, passed, zeroFilled_tells _ _, ran, read 0 2 rfl,
    read 1 0x500000 rfl, read 2 0 rfl, fun stack => ?_⟩
  obtain ⟨argvOne, -⟩ := (decodes_iff passed holds).mp stack.decodes
  rcases argvOne with none_ | one
  · exact absurd none_ (by decide)
  · exact absurd one (by decide)

end Nyaux.Elf
