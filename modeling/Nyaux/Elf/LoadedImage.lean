import Nyaux.Elf.UserBytes

/-! The bytes of a program after `load_elf_program`.

Every segment clears the pages it maps, also where an earlier segment has put bytes already. -/

namespace Nyaux.Elf

open Word Memory Paging Fs Mm ByteMap ByteImage

/-- The byte of the process at an address. -/
def ProcessState.byte (offset : Nat) (s : ProcessState) (virt : Nat) : Option UInt8 :=
  userByte offset s.map.pml4 s.kernel.mem virt

/-- A process whose lower half has tables and pages of its own. -/
def ProcessState.User (offset : Nat) (pages : List Nat) (stock : Mem → List Slab → Prop)
    (s : ProcessState) : Prop :=
  ∃ tables own, UserHalf offset pages stock s.map.pml4 s.kernel tables own

def segmentPages (base : Nat) (phdr : Elf64Phdr) : List Nat :=
  (segmentAddrs base phdr).map pageIndex

def segmentLayer (base : Nat) (file : Vnode) (phdr : Elf64Phdr) : Layer where
  range := fun virt => base + phdr.pVaddr ≤ virt ∧ virt < base + phdr.pVaddr + phdr.pMemsz
  cleared := fun virt => pageIndex virt ∈ segmentPages base phdr
  write := ⟨add64 base phdr.pVaddr, (vnodeRdwrRead file phdr.pFilesz phdr.pOffset).2⟩

/-- A segment that is mapped and read into the user half. -/
structure UserSegment (base : Nat) (file : Vnode) (phdr : Elf64Phdr) : Prop where
  pages : ∀ virt ∈ segmentAddrs base phdr, virt < 2 ^ 47
  bytes : add64 base phdr.pVaddr + (vnodeRdwrRead file phdr.pFilesz phdr.pOffset).2.length ≤ 2 ^ 47

/-- `PT_LOAD`. -/
def loadHeaders (headers : List Elf64Phdr) : List Elf64Phdr :=
  headers.filter fun phdr => phdr.pType = 1

section Steps

variable {offset : Nat} {pages : List Nat} {stock : Mem → List Slab → Prop} {base : Nat}
  {file : Vnode} {phdr : Elf64Phdr} {s s' : ProcessState} {k k' : Kernel}

theorem loadSegment_spec (user : s.User offset pages stock) (direct : Direct offset pages)
    (nodes : Stable stock (cacheFor 32)) (low : ∀ virt ∈ segmentAddrs base phdr, virt < 2 ^ 47)
    (ran : s.loadSegment offset base phdr = .ok s') :
    s'.map.pml4 = s.map.pml4 ∧ s'.User offset pages stock ∧
      ∀ virt < 2 ^ 47, s'.byte offset virt =
        if pageIndex virt ∈ segmentPages base phdr then some 0 else s.byte offset virt := by
  obtain ⟨tables, own, user⟩ := user
  obtain ⟨k₁, loop, rest⟩ := of_bind_ok ran
  obtain ⟨tables₁, own₁, user₁, bytes₁⟩ :=
    user.mapFreshPages direct nodes (userFlags_bits true) _ low loop
  dsimp only at rest
  split at rest
  · obtain ⟨⟨node, k₂⟩, took, rest⟩ := of_bind_ok rest
    obtain rfl := Except.ok.inj rest
    obtain ⟨user₂, bytes₂⟩ := user₁.kernelStep direct.usable
      (user₁.heap.allocNode direct.usable nodes took)
    exact ⟨rfl, ⟨tables₁, own₁, user₂⟩, fun virt small =>
      (bytes₂ virt small).trans (bytes₁ virt small)⟩
  · obtain rfl := Except.ok.inj rest
    exact ⟨rfl, ⟨tables₁, own₁, user₁⟩, bytes₁⟩

theorem readSegment_spec (user : s.User offset pages stock) (direct : Direct offset pages)
    (nodes : Stable stock (cacheFor 32)) (segment : UserSegment base file phdr)
    (ran : s.readSegment offset base file phdr = .ok s') :
    s'.map.pml4 = s.map.pml4 ∧ s'.User offset pages stock ∧
      ∀ virt < 2 ^ 47, s'.byte offset virt =
        (segmentLayer base file phdr).over (s.byte offset) virt := by
  obtain ⟨s₁, loaded, rest⟩ := of_bind_ok ran
  obtain ⟨mem, wrote, rest⟩ := of_bind_ok rest
  obtain rfl := Except.ok.inj rest
  obtain ⟨same, ⟨tables, own, user₁⟩, bytes₁⟩ :=
    loadSegment_spec user direct nodes segment.pages loaded
  obtain ⟨user₂, bytes₂⟩ := writeBytes_spec user₁ direct.usable nodes segment.bytes wrote
  refine ⟨same, ⟨tables, own, user₂⟩, fun virt small => ?_⟩
  have before := bytes₁ virt small
  have after := bytes₂ virt small
  rw [ProcessState.byte] at before ⊢
  rw [after, before, Layer.over]
  congr 2

theorem Headers.step_cases {h h' : Headers} (step : h.step offset base file phdr = .ok h') :
    (phdr.pType = 1 ∧ ∃ process, h.process.readSegment offset base file phdr = .ok process ∧
      h' = ⟨process, h.stored, h.interp, h.path⟩) ∨
    (phdr.pType = 6 ∧ h' = ⟨h.process, add64 base phdr.pVaddr, h.interp, h.path⟩) ∨
    (phdr.pType = 3 ∧ ∃ path, readInterp file phdr h.path = some path ∧
      h' = ⟨h.process, h.stored, true, path⟩) ∨
    (phdr.pType ≠ 1 ∧ phdr.pType ≠ 6 ∧ phdr.pType ≠ 3 ∧ h' = h) := by
  unfold Headers.step at step
  split at step
  · rename_i load
    obtain ⟨process, read, same⟩ := of_bind_ok step
    exact .inl ⟨load, process, read, (Except.ok.inj same).symm⟩
  · rename_i table
    exact .inr (.inl ⟨table, (Except.ok.inj step).symm⟩)
  · rename_i interp
    cases read : readInterp file phdr h.path with
    | none =>
        rw [read] at step
        cases step
    | some path =>
        rw [read] at step
        exact .inr (.inr (.inl ⟨interp, path, rfl, (Except.ok.inj step).symm⟩))
  · rename_i load table interp
    exact .inr (.inr (.inr ⟨load, table, interp, (Except.ok.inj step).symm⟩))

theorem Headers.step_process {h h' : Headers} (step : h.step offset base file phdr = .ok h')
    (other : phdr.pType ≠ 1) : h'.process = h.process := by
  rcases h.step_cases step with ⟨load, -⟩ | ⟨-, rfl⟩ | ⟨-, path, -, rfl⟩ | ⟨-, -, -, rfl⟩
  · exact absurd load other
  · rfl
  · rfl
  · rfl

theorem loadHeaders_cons_pos {rest : List Elf64Phdr} (load : phdr.pType = 1) :
    loadHeaders (phdr :: rest) = phdr :: loadHeaders rest :=
  List.filter_cons_of_pos (decide_eq_true load)

theorem loadHeaders_cons_neg {rest : List Elf64Phdr} (other : phdr.pType ≠ 1) :
    loadHeaders (phdr :: rest) = loadHeaders rest :=
  List.filter_cons_of_neg (by simpa using other)

theorem headers_spec (direct : Direct offset pages) (nodes : Stable stock (cacheFor 32))
    (headers : List Elf64Phdr) (segments : ∀ phdr ∈ loadHeaders headers, UserSegment base file phdr)
    {h h' : Headers} (user : h.process.User offset pages stock)
    (ran : headers.foldlM (Headers.step offset base file) h = .ok h') :
    h'.process.map.pml4 = h.process.map.pml4 ∧ h'.process.User offset pages stock ∧
      ∀ virt < 2 ^ 47, h'.process.byte offset virt =
        build (h.process.byte offset) ((loadHeaders headers).map (segmentLayer base file)) virt := by
  induction headers generalizing h with
  | nil =>
      obtain rfl := Except.ok.inj ran
      exact ⟨rfl, user, fun _ _ => rfl⟩
  | cons phdr rest ih =>
      rw [List.foldlM_cons] at ran
      obtain ⟨h₁, step, ran⟩ := of_bind_ok ran
      by_cases load : phdr.pType = 1
      · rw [loadHeaders_cons_pos load] at segments ⊢
        simp only [Headers.step, load] at step
        obtain ⟨process, read, same⟩ := of_bind_ok step
        obtain rfl := Except.ok.inj same
        obtain ⟨root₁, user₁, bytes₁⟩ :=
          readSegment_spec user direct nodes (segments phdr List.mem_cons_self) read
        obtain ⟨root, user', bytes⟩ :=
          ih (fun other member => segments other (List.mem_cons_of_mem phdr member)) user₁ ran
        refine ⟨root.trans root₁, user', fun virt small => ?_⟩
        rw [bytes virt small, List.map_cons, build_cons]
        exact build_congr _ (bytes₁ virt small)
      · rw [loadHeaders_cons_neg load] at segments ⊢
        have same := h.step_process step load
        obtain ⟨root, user', bytes⟩ := ih segments (same ▸ user) ran
        rw [same] at root bytes
        exact ⟨root, user', bytes⟩

theorem headers_interp (headers : List Elf64Phdr) (plain : ∀ phdr ∈ headers, phdr.pType ≠ 3)
    {h h' : Headers} (ran : headers.foldlM (Headers.step offset base file) h = .ok h') :
    h'.interp = h.interp := by
  induction headers generalizing h with
  | nil =>
      obtain rfl := Except.ok.inj ran
      rfl
  | cons phdr rest ih =>
      rw [List.foldlM_cons] at ran
      obtain ⟨h₁, step, ran⟩ := of_bind_ok ran
      rw [ih (fun other member => plain other (List.mem_cons_of_mem phdr member)) ran]
      rcases h.step_cases step with
        ⟨-, process, -, rfl⟩ | ⟨-, rfl⟩ | ⟨interp, -⟩ | ⟨-, -, -, rfl⟩
      · rfl
      · rfl
      · exact absurd interp (plain phdr List.mem_cons_self)
      · rfl

theorem allocBlock_spec {data : Multiset Nat} (ready : HeapReady offset pages stock data k)
    (direct : Direct offset pages) {size block : Nat}
    (ran : allocBlock offset size k = .ok (block, k')) :
    (size < 1024 → Served stock k'.mem (cacheFor size) block) ∧
      (Stable stock (cacheFor 32) → (size < 1024 → Stable stock (cacheFor size)) →
        KernelStep offset pages stock data k k') := by
  obtain ⟨⟨x, k₁⟩, got, rest⟩ := of_bind_ok ran
  dsimp only at rest
  split at rest
  · cases rest
  · obtain ⟨rfl, rfl⟩ := Prod.mk.inj (Except.ok.inj rest)
    refine ⟨fun small => ?_, fun nodes stable => ready.kmalloc direct nodes stable got⟩
    rw [Mm.kmalloc, if_pos small] at got
    exact (ready.kmallocSlab direct.usable small got).1

theorem stack_pages : (numOfPages 512000).toNat = 125 ∧
    ∀ virt ∈ loopAddrs newThreadStack 125, newThreadStack ≤ virt ∧ virt < 2 ^ 47 := by
  constructor
  · decide
  · intro virt member
    obtain ⟨i, inside, rfl⟩ := List.mem_map.mp member
    rw [pageAddr_eq (by rw [List.mem_range] at inside; omega)]
    rw [List.mem_range] at inside
    unfold newThreadStack
    omega

theorem newContext_spec {data : Multiset Nat} (ready : HeapReady offset pages stock data k)
    (direct : Direct offset pages) (stable : ∀ c, Stable stock c) {xsaveSize entryFunc rsp : Nat}
    {user : Bool} {context : NewContext}
    (ran : newContext offset xsaveSize entryFunc rsp user k = .ok (context, k')) :
    KernelStep offset pages stock data k k' := by
  obtain ⟨⟨newGuy, k₁⟩, first, rest⟩ := of_bind_ok ran
  obtain ⟨⟨fpuState, k₂⟩, second, rest⟩ := of_bind_ok rest
  obtain ⟨-, rfl⟩ := Prod.mk.inj (Except.ok.inj rest)
  have step := (allocBlock_spec ready direct first).2 (stable _) fun _ => stable _
  exact step.trans ((allocBlock_spec step.ready direct second).2 (stable _) fun _ => stable _)

theorem mapStack_spec {base : Nat} (user : s.User offset pages stock) (direct : Direct offset pages)
    (nodes : Stable stock (cacheFor 32))
    (ran : s.map.mmapRange offset newThreadStack 512000 (userFlags true) s.kernel = .ok (base, k')) :
    ∃ tables own, UserHalf offset pages stock s.map.pml4 k' tables own ∧
      (∀ virt < newThreadStack, userByte offset s.map.pml4 k'.mem virt = s.byte offset virt) ∧
      ∀ virt < 2 ^ 47, pageIndex virt ∈ (loopAddrs newThreadStack 125).map pageIndex →
        userByte offset s.map.pml4 k'.mem virt = some 0 := by
  obtain ⟨tables, own, user⟩ := user
  obtain ⟨count, range⟩ := stack_pages
  rw [Pagemap.mmapRange, if_neg (by decide), count] at ran
  obtain ⟨k₁, loop, rest⟩ := of_bind_ok ran
  obtain ⟨-, rfl⟩ := Prod.mk.inj (Except.ok.inj rest)
  obtain ⟨tables', own', user', bytes⟩ :=
    user.mapFreshPages direct nodes (userFlags_bits true) _
      (fun virt member => (range virt member).2) loop
  refine ⟨tables', own', user', fun virt small => ?_, fun virt low inStack => ?_⟩
  · have low : virt < 2 ^ 47 := Nat.lt_trans small (by decide)
    rw [bytes virt low, if_neg, ProcessState.byte]
    intro member
    obtain ⟨other, inRange, same⟩ := List.mem_map.mp member
    obtain ⟨above, otherLow⟩ := range other inRange
    rw [(pageIndex_user low).1, (pageIndex_user otherLow).1] at same
    unfold newThreadStack at small above
    omega
  · rw [bytes virt low, if_pos inStack]

structure FreshStack (offset : Nat) (pages : List Nat) (stock : Mem → List Slab → Prop)
    (s : ProcessState) (k : Kernel) : Prop where
  user : ProcessState.User offset pages stock ⟨k, s.map⟩
  below : ∀ virt < newThreadStack, userByte offset s.map.pml4 k.mem virt = s.byte offset virt
  mapped : ∀ virt < 2 ^ 47, pageIndex virt ∈ (loopAddrs newThreadStack 125).map pageIndex →
    userByte offset s.map.pml4 k.mem virt = some 0

theorem newContext_rsp {entryFunc rsp : Nat} {xsaveSize : Nat} {user : Bool} {context : NewContext}
    (ran : newContext offset xsaveSize entryFunc rsp user k = .ok (context, k')) :
    context.frame.rsp = BitVec.ofNat 64 rsp := by
  obtain ⟨⟨newGuy, k₁⟩, -, rest⟩ := of_bind_ok ran
  obtain ⟨⟨fpuState, k₂⟩, -, rest⟩ := of_bind_ok rest
  obtain ⟨rfl, -⟩ := Prod.mk.inj (Except.ok.inj rest)
  rfl

/-- The parameters of a new thread: they go to a fresh stack, in a window whose size the thread's
block held. -/
theorem startThread_inv (user : s.User offset pages stock) (direct : Direct offset pages)
    (stable : ∀ c, Stable stock c) {args : ElfArgs} {xsaveSize entryFunc : Nat} {thread : NewThread}
    (ran : s.startThread offset xsaveSize entryFunc args = .ok (thread, s')) :
    ∃ mem block k window mem₁ window' mem', Served stock mem (cacheFor 88) block ∧
      FreshStack offset pages stock s k ∧
      pushAll offset s.map.pml4 stackTop args.pushes (mem (block + 80)) k.mem = .ok (window, mem₁) ∧
      alignWindow offset s.map.pml4 stackTop window mem₁ = .ok (window', mem') ∧
      thread.context.frame.rsp = BitVec.ofNat 64 stackTop - BitVec.ofNat 64 window' ∧
      s' = ⟨{ k with mem := mem' }, s.map⟩ := by
  obtain ⟨⟨base, k₁⟩, stack, ran⟩ := of_bind_ok ran
  obtain ⟨⟨context, k₂⟩, made, ran⟩ := of_bind_ok ran
  obtain ⟨⟨info, k₃⟩, gotInfo, ran⟩ := of_bind_ok ran
  obtain ⟨⟨block, k₄⟩, gotThread, ran⟩ := of_bind_ok ran
  obtain ⟨⟨gsBase, k₅⟩, gotGs, ran⟩ := of_bind_ok ran
  obtain ⟨⟨page, k₆⟩, gotPage, ran⟩ := of_bind_ok ran
  obtain ⟨⟨window₁, mem₁⟩, pushed, ran⟩ := of_bind_ok ran
  obtain ⟨⟨window₂, mem₂⟩, aligned, ran⟩ := of_bind_ok ran
  obtain ⟨rfl, rfl⟩ := Prod.mk.inj (Except.ok.inj ran)
  have nodes := stable (cacheFor 32)
  obtain ⟨tables, own, user₁, below₁, mapped₁⟩ := mapStack_spec user direct nodes stack
  have step₂ := newContext_spec user₁.heap direct stable made
  have step₃ := (allocBlock_spec step₂.ready direct gotInfo).2 nodes fun _ => stable _
  obtain ⟨served, next⟩ := allocBlock_spec step₃.ready direct gotThread
  have step₄ := next nodes fun _ => stable _
  have step₅ := (allocBlock_spec step₄.ready direct gotGs).2 nodes fun _ => stable _
  have step₆ := step₅.ready.pmmAlloc direct gotPage
  have step := (((step₂.trans step₃).trans step₄).trans step₅).trans step₆
  obtain ⟨user₆, bytes₆⟩ := user₁.kernelStep direct.usable step
  refine ⟨k₄.mem, block, k₆, window₁, mem₁, window₂, mem₂, served (by decide),
    ⟨⟨tables, own, user₆⟩, fun virt small => ?_, fun virt low inStack => ?_⟩, pushed, aligned, ?_,
    rfl⟩
  · rw [bytes₆ virt (Nat.lt_trans small (by decide))]
    exact below₁ virt small
  · rw [bytes₆ virt low]
    exact mapped₁ virt low inStack
  · dsimp only
    rw [newContext_rsp made]

/-- From the mapping of the stack on, the loader leaves what is below the stack alone: when the
parameters, in a window whose size the thread's block held, have room in the stack. -/
theorem startThread_spec (user : s.User offset pages stock) (direct : Direct offset pages)
    (stable : ∀ c, Stable stock c) {args : ElfArgs}
    (room : ∀ mem block, Served stock mem (cacheFor 88) block →
      mem (block + 80) + pushedSize args.pushes ≤ 512000)
    {xsaveSize entryFunc : Nat} {thread : NewThread}
    (ran : s.startThread offset xsaveSize entryFunc args = .ok (thread, s')) :
    s'.map = s.map ∧ s'.User offset pages stock ∧
      ∀ virt < newThreadStack, s'.byte offset virt = s.byte offset virt := by
  have nodes := stable (cacheFor 32)
  obtain ⟨mem, block, k, window, mem₁, window', mem', served, fresh, pushed, aligned, -, rfl⟩ :=
    startThread_inv user direct stable ran
  obtain ⟨tables, own, user₆⟩ := fresh.user
  have fits := room mem block served
  obtain ⟨size, user₇, write₇⟩ := pushAll_spec user₆ direct.usable nodes fits pushed
  obtain ⟨user₈, write₈⟩ := alignWindow_spec user₇ direct.usable nodes (by omega) aligned
  refine ⟨rfl, ⟨tables, own, user₈⟩, fun virt small => ?_⟩
  calc userByte offset s.map.pml4 mem' virt
      = userByte offset s.map.pml4 k.mem virt := (write₇.trans write₈).below virt small
    _ = s.byte offset virt := fresh.below virt small

end Steps

/-- `[p_vaddr, p_vaddr + p_memsz)`. -/
def segmentRange (phdr : Elf64Phdr) (virt : Nat) : Prop :=
  phdr.pVaddr ≤ virt ∧ virt < phdr.pVaddr + phdr.pMemsz

structure BelowStack (base : Nat) (phdr : Elf64Phdr) : Prop where
  bytes : base + phdr.pVaddr + phdr.pMemsz ≤ newThreadStack
  pages : ∀ virt ∈ segmentAddrs base phdr, virt < newThreadStack

/-- A program file without an interpreter, as it should be. -/
structure Program (base : Nat) (file : Vnode) : Prop where
  isFile : file.type = .file
  stored : file.node.data.addr + file.node.size < 2 ^ 64
  plain : ∀ phdr ∈ phdrs file, phdr.pType ≠ 3
  below : ∀ phdr ∈ loadHeaders (phdrs file), BelowStack base phdr
  sizes : ∀ phdr ∈ loadHeaders (phdrs file), phdr.pFilesz ≤ phdr.pMemsz
  inFile : ∀ phdr ∈ loadHeaders (phdrs file), phdr.pOffset + phdr.pFilesz ≤ file.node.size
  disjoint : (loadHeaders (phdrs file)).Pairwise fun phdr later =>
    ∀ virt, segmentRange phdr virt → ¬segmentRange later virt

/-- Every byte of every segment is the file's, or 0 behind these. -/
def ImageLoaded (offset base : Nat) (file : Vnode) (s : ProcessState) : Prop :=
  ∀ phdr ∈ loadHeaders (phdrs file), ∀ i < phdr.pMemsz,
    s.byte offset (base + phdr.pVaddr + i) =
      some (if i < phdr.pFilesz then file.node.data.bytes (phdr.pOffset + i) else 0)

/-- The loop of some segment maps the pages of the bytes that are to be 0. -/
def Backed (base : Nat) (file : Vnode) : Prop :=
  ∀ phdr ∈ loadHeaders (phdrs file), ∀ i, phdr.pFilesz ≤ i → i < phdr.pMemsz →
    ∃ other ∈ loadHeaders (phdrs file),
      pageIndex (base + phdr.pVaddr + i) ∈ segmentPages base other

/-- No later segment maps a page in which an earlier one has a byte of the file other than 0. -/
def Undisturbed (base : Nat) (file : Vnode) : Prop :=
  (loadHeaders (phdrs file)).Pairwise fun phdr later => ∀ i < phdr.pFilesz,
    pageIndex (base + phdr.pVaddr + i) ∈ segmentPages base later →
      file.node.data.bytes (phdr.pOffset + i) = 0

section Short

variable {base : Nat} {phdr : Elf64Phdr}

/-- The offsets of a segment of less than 2 GiB do not run over an `int`. -/
theorem segmentAddrs_short (aligned : 4096 ∣ base)
    (low : base + phdr.pVaddr + phdr.pMemsz ≤ newThreadStack)
    (short : phdr.pMemsz + 8192 ≤ 2 ^ 31) (virt : Nat) :
    virt ∈ segmentAddrs base phdr ↔ ∃ i < (phdr.pVaddr % 4096 + phdr.pMemsz + 4095) / 4096,
      virt = (base + phdr.pVaddr) / 4096 * 4096 + i * 4096 := by
  unfold newThreadStack at low
  have start : misaligned phdr = phdr.pVaddr % 4096 := Nat.and_two_pow_sub_one_eq_mod _ 12
  have place : add64 base phdr.pVaddr = base + phdr.pVaddr := add64_of_lt (by omega)
  have size : add64 phdr.pMemsz (misaligned phdr) = phdr.pVaddr % 4096 + phdr.pMemsz := by
    rw [start, add64_of_lt (by omega), Nat.add_comm]
  have count : (toInt32 (segmentLength phdr / 4096)).toNat =
      (phdr.pVaddr % 4096 + phdr.pMemsz + 4095) / 4096 := by
    rw [segmentLength, size, alignUp_page_of_le (by omega), Nat.mul_div_cancel _ (by decide),
      toInt32_of_lt (by omega), Int.toNat_natCast]
  have page : ∀ i < (phdr.pVaddr % 4096 + phdr.pMemsz + 4095) / 4096,
      alignDown (pageAddr (add64 base phdr.pVaddr) i) 4096 =
        (base + phdr.pVaddr) / 4096 * 4096 + i * 4096 := by
    intro i inside
    rw [place, pageAddr_eq (by omega), Nat.mod_eq_of_lt (by omega), alignDown_page (by omega)]
    omega
  rw [segmentAddrs, count, List.mem_map]
  constructor
  · rintro ⟨i, member, rfl⟩
    have inside := List.mem_range.mp member
    exact ⟨i, inside, page i inside⟩
  · rintro ⟨i, inside, rfl⟩
    exact ⟨i, List.mem_range.mpr inside, page i inside⟩

theorem belowStack_of_short (aligned : 4096 ∣ base)
    (low : base + phdr.pVaddr + phdr.pMemsz ≤ newThreadStack)
    (short : phdr.pMemsz + 8192 ≤ 2 ^ 31) : BelowStack base phdr := by
  refine ⟨low, fun virt member => ?_⟩
  obtain ⟨i, inside, rfl⟩ := (segmentAddrs_short aligned low short virt).mp member
  unfold newThreadStack at low ⊢
  omega

theorem segmentPages_short (aligned : 4096 ∣ base)
    (low : base + phdr.pVaddr + phdr.pMemsz ≤ newThreadStack)
    (short : phdr.pMemsz + 8192 ≤ 2 ^ 31) {i : Nat} (inside : i < phdr.pMemsz) :
    pageIndex (base + phdr.pVaddr + i) ∈ segmentPages base phdr := by
  refine List.mem_map.mpr ⟨(base + phdr.pVaddr) / 4096 * 4096 +
    (phdr.pVaddr % 4096 + i) / 4096 * 4096, ?_, ?_⟩
  · exact (segmentAddrs_short aligned low short _).mpr ⟨_, by omega, rfl⟩
  · unfold newThreadStack at low
    unfold pageIndex
    omega

theorem backed_of_short {file : Vnode} (aligned : 4096 ∣ base) (short : ∀ phdr ∈ loadHeaders (phdrs file),
      base + phdr.pVaddr + phdr.pMemsz ≤ newThreadStack ∧ phdr.pMemsz + 8192 ≤ 2 ^ 31) :
    Backed base file := by
  intro phdr member i _ inside
  obtain ⟨low, small⟩ := short phdr member
  exact ⟨phdr, member, segmentPages_short aligned low small inside⟩

end Short

section Image

variable {base : Nat} {file : Vnode} {phdr : Elf64Phdr}

theorem read_inside (isFile : file.type = .file)
    (stored : file.node.data.addr + file.node.size < 2 ^ 64) {size at_ : Nat}
    (inside : at_ + size ≤ file.node.size) :
    (vnodeRdwrRead file size at_).2 =
      (List.range size).map fun i => file.node.data.bytes (at_ + i) := by
  by_cases empty : file.node.size = 0
  · obtain rfl : size = 0 := by omega
    rw [vnodeRdwrRead, if_pos isFile]
    simp [empty]
  have start : add64 file.node.data.addr at_ = file.node.data.addr + at_ := add64_of_lt (by omega)
  have stop : add64 (file.node.data.addr + at_) size = file.node.data.addr + at_ + size :=
    add64_of_lt (by omega)
  have last : add64 file.node.data.addr file.node.size =
      file.node.data.addr + file.node.size := add64_of_lt stored
  have whole : ¬file.node.data.addr + at_ + size > file.node.data.addr + file.node.size := by omega
  have ordered : ¬file.node.data.addr + at_ > file.node.data.addr + at_ + size := by omega
  simp only [vnodeRdwrRead, if_pos isFile, if_neg empty, start, stop, last, if_neg whole,
    if_neg ordered, Nat.add_sub_cancel_left]
  apply List.map_congr_left
  intro i member
  have inside := List.mem_range.mp member
  rw [Nat.add_assoc, sub64_add_left (by omega)]

theorem Program.read (program : Program base file) (member : phdr ∈ loadHeaders (phdrs file)) :
    (vnodeRdwrRead file phdr.pFilesz phdr.pOffset).2 =
      (List.range phdr.pFilesz).map fun i => file.node.data.bytes (phdr.pOffset + i) :=
  read_inside program.isFile program.stored (program.inFile phdr member)

theorem Program.place (program : Program base file) (member : phdr ∈ loadHeaders (phdrs file)) :
    add64 base phdr.pVaddr = base + phdr.pVaddr := by
  have below := (program.below phdr member).bytes
  unfold newThreadStack at below
  exact add64_of_lt (by omega)

theorem Program.segment (program : Program base file) (member : phdr ∈ loadHeaders (phdrs file)) :
    UserSegment base file phdr := by
  have below := program.below phdr member
  have bytes := below.bytes
  have sizes := program.sizes phdr member
  constructor
  · exact fun virt inside => Nat.lt_trans (below.pages virt inside) (by decide)
  · rw [program.read member, program.place member, List.length_map, List.length_range]
    unfold newThreadStack at bytes
    omega

theorem Program.at (program : Program base file) (member : phdr ∈ loadHeaders (phdrs file))
    (i : Nat) : (segmentLayer base file phdr).write.at (base + phdr.pVaddr + i) =
      if i < phdr.pFilesz then some (file.node.data.bytes (phdr.pOffset + i)) else none := by
  rw [segmentLayer, program.read member, program.place member, Write.at,
    if_pos (Nat.le_add_right _ _), Nat.add_sub_cancel_left]
  by_cases inside : i < phdr.pFilesz
  · rw [if_pos inside, List.getElem?_map, List.getElem?_range inside, Option.map_some]
  · rw [if_neg inside]
    apply List.getElem?_eq_none
    rw [List.length_map, List.length_range]
    omega

theorem Program.at_some (program : Program base file) (member : phdr ∈ loadHeaders (phdrs file))
    {virt : Nat} {b : UInt8} (written : (segmentLayer base file phdr).write.at virt = some b) :
    ∃ i < phdr.pFilesz, virt = base + phdr.pVaddr + i ∧
      b = file.node.data.bytes (phdr.pOffset + i) := by
  have above : base + phdr.pVaddr ≤ virt := by
    by_contra below
    rw [at_of_outside _ _ fun inside => below (program.place member ▸ inside.1)] at written
    cases written
  obtain ⟨i, rfl⟩ := Nat.exists_eq_add_of_le above
  rw [program.at member] at written
  split at written
  · rename_i inside
    exact ⟨i, inside, rfl, (Option.some.inj written).symm⟩
  · cases written

theorem Program.exact (program : Program base file) {image : Image}
    (empty : ∀ virt < 2 ^ 47, image virt = none) :
    (∀ phdr ∈ loadHeaders (phdrs file), ∀ i < phdr.pMemsz,
      build image ((loadHeaders (phdrs file)).map (segmentLayer base file))
        (base + phdr.pVaddr + i) =
          some (if i < phdr.pFilesz then file.node.data.bytes (phdr.pOffset + i) else 0)) ↔
      Backed base file ∧ Undisturbed base file := by
  have below : ∀ phdr ∈ loadHeaders (phdrs file), ∀ i < phdr.pMemsz,
      base + phdr.pVaddr + i < 2 ^ 47 := by
    intro phdr member i inside
    have bytes := (program.below phdr member).bytes
    unfold newThreadStack at bytes
    omega
  have apart : ((loadHeaders (phdrs file)).map (segmentLayer base file)).Pairwise
      fun l later => ∀ p, l.range p → ¬later.range p := by
    rw [List.pairwise_map]
    apply program.disjoint.imp
    rintro phdr later disjoint p ⟨lower, upper⟩ ⟨lower', upper'⟩
    exact disjoint (p - base) ⟨by omega, by omega⟩ ⟨by omega, by omega⟩
  have inside : ∀ l ∈ (loadHeaders (phdrs file)).map (segmentLayer base file), ∀ p b,
      l.write.at p = some b → l.range p := by
    rw [List.forall_mem_map]
    intro phdr member p b written
    obtain ⟨i, small, rfl, -⟩ := program.at_some member written
    have sizes := program.sizes phdr member
    exact ⟨Nat.le_add_right _ _, by omega⟩
  have nothing : ∀ l ∈ (loadHeaders (phdrs file)).map (segmentLayer base file), ∀ p, l.range p →
      image p = none := by
    rw [List.forall_mem_map]
    rintro phdr member p ⟨lower, upper⟩
    obtain ⟨i, rfl⟩ := Nat.exists_eq_add_of_le lower
    exact empty _ (below phdr member i (by omega))
  have layers := build_exact_iff inside apart nothing
  rw [Intact, List.pairwise_map] at layers
  simp only [List.forall_mem_map] at layers
  simp only [List.mem_map, exists_exists_and_eq_and] at layers
  constructor
  · intro loaded
    obtain ⟨holes, intact⟩ := layers.mp (by
      rintro phdr member p ⟨lower, upper⟩
      obtain ⟨i, rfl⟩ := Nat.exists_eq_add_of_le lower
      rw [loaded phdr member i (by omega), program.at member]
      split <;> rfl)
    constructor
    · intro phdr member i behind small
      apply holes phdr member _ ⟨Nat.le_add_right _ _, by omega⟩
      rw [program.at member, if_neg (by omega)]
    · apply intact.imp_of_mem
      intro phdr later member _ kept i small inPages
      apply kept _ _ _ inPages
      rw [program.at member, if_pos small]
  · rintro ⟨backed, undisturbed⟩ phdr member i small
    rw [layers.mpr ⟨?_, ?_⟩ phdr member _ ⟨Nat.le_add_right _ _, by omega⟩, program.at member]
    · split <;> rfl
    · rintro phdr member p ⟨lower, upper⟩ unwritten
      obtain ⟨i, rfl⟩ := Nat.exists_eq_add_of_le lower
      rw [program.at member] at unwritten
      split at unwritten
      · cases unwritten
      · exact backed phdr member i (by omega) (by omega)
    · apply undisturbed.imp_of_mem
      intro phdr later member _ kept p b written inPages
      obtain ⟨i, small, rfl, rfl⟩ := program.at_some member written
      exact kept i small inPages

end Image

end Nyaux.Elf
