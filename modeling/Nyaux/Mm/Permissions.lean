import Nyaux.Mm.UserPages

/-! What `map` lets the user do at a page.

The tables on the way to a page carry the flags of the call that made them, not those of the
page. -/

namespace Nyaux.Mm

open Word Memory Paging

/-- A call of `map` as `syscall_mmap` makes it; `exec` is its `PROT_EXEC`. -/
structure MapCall where
  virt : Nat
  phys : Nat
  exec : Bool

def MapCall.page (c : MapCall) : Nat := pageIndex c.virt

/-- An address of the user half and the address of a physical page. -/
structure MapCall.Ok (c : MapCall) : Prop where
  user : c.virt < 2 ^ 47
  aligned : 4096 ∣ c.phys
  phys : c.phys < 2 ^ 52

def mapCalls (offset root : Nat) : List MapCall → Kernel → Except Stop Kernel
  | [], k => .ok k
  | c :: rest, k => do
      let k ← map offset root c.virt c.phys (userFlags c.exec) k
      mapCalls offset root rest k

/-- The tables below `root` for the lower half: none. -/
def EmptyUserHalf (offset : Nat) (pages : List Nat) (root : Nat) (k : Kernel) : Prop :=
  ∃ free slabs data, PagingInv offset pages root 256 k free slabs [([], root)] data

/-- The last call for a page. -/
def latest (calls : List MapCall) (page : Nat) : Option MapCall :=
  calls.reverse.find? fun c => c.page = page

def creator (calls : List MapCall) (n page : Nat) : Option MapCall :=
  calls.find? fun c => c.page / 2 ^ (9 * n) = page / 2 ^ (9 * n)

/-- The tables on the way to a page were made for executable pages. -/
def MadeExecutable (calls : List MapCall) (page : Nat) : Prop :=
  ∀ n, 1 ≤ n → n ≤ 3 → ∀ c, creator calls n page = some c → c.exec = true

/-- The rights of a call's flags. -/
def MapCall.access (c : MapCall) : Access := ⟨true, true, c.exec⟩

/-- Every mapped page has the rights of its last call. -/
def AccessLatest (offset root : Nat) (calls : List MapCall) (k : Kernel) : Prop :=
  ∀ c ∈ calls, Paging.access offset k.mem root c.page = (latest calls c.page).map MapCall.access

structure Stamped (exec : Bool) (entry : Nat) : Prop where
  present : Present entry
  write : entry.testBit 1 = true
  user : entry.testBit 2 = true
  execute : entry.testBit 63 = !exec

def Written (entry : Nat) : Option MapCall → Prop
  | none => ¬ Present entry
  | some c => Stamped c.exec entry

def source (calls : List MapCall) (page : Nat) : Nat → Option MapCall
  | 0 => latest calls page
  | n + 1 => creator calls (n + 1) page

def StampInv (offset root : Nat) (calls : List MapCall) (mem : Mem) : Prop :=
  ∀ page < 2 ^ 35, ∀ n ≤ 3,
    Written (entryAt offset mem root ((entryPath page).drop n)) (source calls page n)

theorem MapCall.Ok.page_lt {c : MapCall} (ok : c.Ok) : c.page < 2 ^ 35 := by
  have user := ok.user
  unfold MapCall.page pageIndex
  omega

theorem stamped_or {phys : Nat} (aligned : 4096 ∣ phys) (bound : phys < 2 ^ 52) (exec : Bool) :
    Stamped exec (phys ||| userFlags exec) := by
  obtain ⟨frame, rfl⟩ := aligned
  have low (i : Nat) (small : i < 12) : (4096 * frame).testBit i = false := by
    rw [show 4096 = 2 ^ 12 from rfl, Nat.testBit_two_pow_mul, decide_eq_false (by omega),
      Bool.false_and]
  have high : (4096 * frame).testBit 63 = false :=
    Nat.testBit_lt_two_pow (bound.trans (by decide))
  refine ⟨present_or (userFlags_bits exec) _, ?_, ?_, ?_⟩
  · rw [Nat.testBit_or, low 1 (by decide)]
    cases exec <;> decide
  · rw [Nat.testBit_or, low 2 (by decide)]
    cases exec <;> decide
  · rw [Nat.testBit_or, high]
    cases exec <;> decide

theorem latest_snoc (calls : List MapCall) (c : MapCall) (page : Nat) :
    latest (calls ++ [c]) page = if c.page = page then some c else latest calls page := by
  rw [latest, List.reverse_append, List.reverse_singleton, List.singleton_append, List.find?_cons]
  split <;> simp_all [latest]

theorem latest_of_nodup {calls : List MapCall} {c : MapCall}
    (nodup : (calls.map MapCall.page).Nodup) (member : c ∈ calls) :
    latest calls c.page = some c := by
  cases found : latest calls c.page with
  | none =>
      rw [latest, List.find?_eq_none] at found
      exact absurd (decide_eq_true rfl) (found c (List.mem_reverse.mpr member))
  | some d =>
      have inCalls := List.mem_reverse.mp (List.mem_of_find?_eq_some found)
      have page := List.find?_some found
      rw [decide_eq_true_eq] at page
      rw [List.inj_on_of_nodup_map nodup inCalls member page]

theorem creator_snoc (calls : List MapCall) (c : MapCall) (n page : Nat) :
    creator (calls ++ [c]) n page = (creator calls n page).or
      (if c.page / 2 ^ (9 * n) = page / 2 ^ (9 * n) then some c else none) := by
  rw [creator, List.find?_append, List.find?_singleton]
  simp only [creator, decide_eq_true_eq]

section Runs

variable {offset : Nat} {pages : List Nat} {root : Nat} {k k' : Kernel} {free : List Nat}
  {slabs : List Slab} {tables : List (List Nat × Nat)} {data : Multiset Nat}
  {calls : List MapCall} {c : MapCall}

theorem entryOk_drop {page n : Nat} (bound : page < 2 ^ 35) (level : n ≤ 3) :
    EntryOk 256 ((entryPath page).drop n) := by
  have ok := entryPath_ok (under_user bound)
  unfold entryPath leafPath at ok ⊢
  have ok₁ := ok.2
  have ok₂ := ok₁.tail
  interval_cases n
  · exact ok
  · exact ⟨ok₁.head, ok₁.tail⟩
  · exact ⟨ok₂.head, ok₂.tail⟩
  · exact ⟨ok₂.tail.head, ok₂.tail.tail⟩

theorem drop_suffix_iff {p q n : Nat} (left : p < 2 ^ 35) (right : q < 2 ^ 35) (level : n ≤ 3) :
    (entryPath p).drop n <:+ entryPath q ↔ p / 2 ^ (9 * n) = q / 2 ^ (9 * n) := by
  rw [← drop_entryPath_iff (by omega) (by omega) level]
  constructor
  · intro suffix
    have whole := List.suffix_iff_eq_drop.mp suffix
    rw [whole]
    congr 1
    simp only [List.length_drop, entryPath, leafPath, List.length_cons, List.length_nil]
    omega
  · intro same
    rw [same]
    exact List.drop_suffix _ _

theorem StampInv.step (inv : StampInv offset root calls k.mem) (direct : Direct offset pages)
    (listed : free ⊆ pages) (ok : c.Ok)
    (mapped : Mapped offset root 256 free (userFlags c.exec) c.page
      (c.phys ||| userFlags c.exec) k.mem k'.mem) :
    StampInv offset root (calls ++ [c]) k'.mem := by
  have inside := ok.page_lt
  intro page bound n level
  have before := inv page bound n level
  cases n with
  | zero =>
      rw [source, latest_snoc]
      by_cases here : c.page = page
      · rw [if_pos here, ← here, List.drop_zero, mapped.leaf]
        exact stamped_or ok.aligned ok.phys c.exec
      · rw [if_neg here, List.drop_zero, mapped.others _ (entryPath_ok (under_user bound))]
        · exact before
        · intro suffix
          apply here
          have same := entryPath_injective (by omega) (by omega) (suffix.eq_of_length rfl)
          exact same.symm
  | succ n =>
      rw [source, creator_snoc]
      rw [source] at before
      by_cases shared : c.page / 2 ^ (9 * (n + 1)) = page / 2 ^ (9 * (n + 1))
      · have paths := (drop_entryPath_iff (by omega) (by omega) level).mpr shared
        rw [if_pos shared]
        -- the entry is on the way to the new page
        have onWay : (entryPath page).drop (n + 1) <:+ leafPath c.page := by
          rw [← paths, entryPath, List.drop_succ_cons]
          exact List.drop_suffix _ _
        have nonempty : (entryPath page).drop (n + 1) ≠ [] := by
          intro empty
          have short := List.drop_eq_nil_iff.mp empty
          simp only [entryPath, leafPath, List.length_cons, List.length_nil] at short
          omega
        obtain ⟨present, filled⟩ := mapped.above _ nonempty onWay
        cases made : creator calls (n + 1) page with
        | some d =>
            rw [made] at before
            rcases filled with same | ⟨missing, -⟩
            · rw [same]
              exact before
            · exact absurd before.present missing
        | none =>
            rw [made] at before
            rcases filled with same | ⟨-, table, member, value⟩
            · rw [same] at present
              exact absurd present before
            · obtain ⟨-, aligned, -, near, -⟩ := direct.phys_page (listed member)
              rw [value]
              exact stamped_or aligned (near.trans (by decide)) c.exec
      · rw [if_neg shared, Option.or_none, mapped.others _ (entryOk_drop bound level)]
        · exact before
        · intro suffix
          exact shared ((drop_suffix_iff bound inside level).mp suffix).symm

theorem StampInv.run (direct : Direct offset pages) {rest : List MapCall}
    (inv : PagingInv offset pages root 256 k free slabs tables data)
    (stamps : StampInv offset root calls k.mem) (ok : ∀ c ∈ rest, c.Ok)
    (ran : mapCalls offset root rest k = .ok k') : StampInv offset root (calls ++ rest) k'.mem := by
  induction rest generalizing calls k free tables with
  | nil =>
      obtain rfl := Except.ok.inj ran
      rw [List.append_nil]
      exact stamps
  | cons c rest ih =>
      have okC := ok c List.mem_cons_self
      obtain ⟨k₁, first, ran⟩ := of_bind_ok ran
      have known : Known (fun _ => True) tables := fun _ _ => trivial
      rcases map_spec inv direct (userFlags_bits c.exec) c.virt c.phys known
          (fun _ _ => trivial) (under_user okC.page_lt) with
        ⟨-, -, stopped⟩ | ⟨k₂, free₂, tables₂, ran₂, inv₂, -, mapped, -, -, -⟩
      · rw [stopped] at first
        cases first
      · obtain rfl := Except.ok.inj (ran₂.symm.trans first)
        have listed : free ⊆ pages := fun p member => inv.heap.mem_pages (Or.inl member)
        have stamps₂ := stamps.step direct listed okC mapped
        rw [List.append_cons]
        exact ih inv₂ stamps₂ (fun d member => ok d (List.mem_cons_of_mem c member)) ran

theorem PagingInv.lower_half (inv : PagingInv offset pages root 512 k free slabs [([], root)] data) :
    PagingInv offset pages root 256 k free slabs [([], root)] data := by
  have tree := inv.tree
  refine ⟨inv.heap, tree.root, tree.paths, tree.pages, tree.aligned, ?_, ?_, tree.up⟩
  · intro t member
    obtain rfl := List.mem_singleton.mp member
    exact ⟨by simp, by simp, by simp⟩
  · intro path t i member ok
    exact tree.down path t i member ⟨ok.length, ok.bounds, fun j last => by
      have := ok.first j last
      omega⟩

theorem stampInv_nil (inv : PagingInv offset pages root 256 k free slabs [([], root)] data) :
    StampInv offset root [] k.mem := by
  have below (i j : Nat) (path : List Nat) (ok : PathOk 256 (j :: path)) :
      ¬ Present (entryAt offset k.mem root (i :: j :: path)) := by
    rw [inv.tree.entryAt_of_not_mem ok (by simp)]
    decide
  intro page bound n level
  have ok₁ := leafPath_ok (under_user bound)
  have ok₂ := ok₁.tail
  interval_cases n
  · exact below _ _ _ ok₁
  · exact below _ _ _ ok₂
  · exact below _ _ _ ok₂.tail
  · intro present
    have here : entryAt offset k.mem root ((entryPath page).drop 3) =
        k.mem (slot root (page / 2 ^ 27 % 512)) := inv.tree.entryAt_of_mem inv.tree.root _
    rw [here] at present
    have child := inv.tree.down [] root _ inv.tree.root ok₂.tail present
    simp at child

theorem StampInv.access (stamps : StampInv offset root calls k.mem) (member : c ∈ calls)
    (ok : c.Ok) : ∃ d, latest calls c.page = some d ∧
      ∃ execute, Paging.access offset k.mem root c.page = some ⟨true, true, execute⟩ ∧
        (execute = true ↔ d.exec = true ∧ MadeExecutable calls c.page) := by
  have found : ∀ n, ∃ d, source calls c.page n = some d := by
    intro n
    apply Option.isSome_iff_exists.mp
    cases n with
    | zero =>
        rw [source, latest, List.find?_isSome]
        exact ⟨c, List.mem_reverse.mpr member, decide_eq_true rfl⟩
    | succ n =>
        rw [source, creator, List.find?_isSome]
        exact ⟨c, member, decide_eq_true rfl⟩
  obtain ⟨d, last⟩ := found 0
  have stamped : ∀ n ≤ 3, ∃ e, source calls c.page n = some e ∧
      Stamped e.exec (entryAt offset k.mem root ((entryPath c.page).drop n)) := by
    intro n level
    obtain ⟨e, from'⟩ := found n
    have written := stamps c.page ok.page_lt n level
    rw [from'] at written
    exact ⟨e, from', written⟩
  have onWalk : ∀ entry ∈ walk offset k.mem root (entryPath c.page), ∃ e, Stamped e entry := by
    intro entry inWalk
    obtain ⟨n, level, rfl⟩ := mem_walk_entryPath.mp inWalk
    obtain ⟨e, -, stamp⟩ := stamped n level
    exact ⟨e.exec, stamp⟩
  refine ⟨d, last, (walk offset k.mem root (entryPath c.page)).all fun entry =>
    !entry.testBit 63, ?_, ?_⟩
  · rw [Paging.access, if_pos]
    · rw [List.all_eq_true.mpr, List.all_eq_true.mpr]
      · exact fun entry inWalk => (onWalk entry inWalk).elim fun e stamp => stamp.user
      · exact fun entry inWalk => (onWalk entry inWalk).elim fun e stamp => stamp.write
    · exact fun entry inWalk => (onWalk entry inWalk).elim fun e stamp => stamp.present
  · rw [List.all_eq_true]
    constructor
    · intro clear
      have executable : ∀ n ≤ 3, ∀ e, source calls c.page n = some e → e.exec = true := by
        intro n level e from'
        obtain ⟨e', also, stamp⟩ := stamped n level
        obtain rfl := Option.some.inj (also.symm.trans from')
        have bit := clear _ (mem_walk_entryPath.mpr ⟨n, level, rfl⟩)
        rw [stamp.execute, Bool.not_not] at bit
        exact bit
      refine ⟨executable 0 (by decide) d last, ?_⟩
      intro n above level e made
      obtain ⟨m, rfl⟩ := Nat.exists_eq_add_of_le' above
      exact executable (m + 1) level e made
    · rintro ⟨lastExec, madeExec⟩ entry inWalk
      obtain ⟨n, level, rfl⟩ := mem_walk_entryPath.mp inWalk
      obtain ⟨e, from', stamp⟩ := stamped n level
      rw [stamp.execute, Bool.not_not]
      cases n with
      | zero =>
          obtain rfl := Option.some.inj (last.symm.trans from')
          exact lastExec
      | succ n => exact madeExec (n + 1) (by omega) level e from'

theorem access_run (direct : Direct offset pages) (empty : EmptyUserHalf offset pages root k)
    (ok : ∀ c ∈ calls, c.Ok) (ran : mapCalls offset root calls k = .ok k') (member : c ∈ calls) :
    ∃ d, latest calls c.page = some d ∧
      ∃ execute, Paging.access offset k'.mem root c.page = some ⟨true, true, execute⟩ ∧
        (execute = true ↔ d.exec = true ∧ MadeExecutable calls c.page) := by
  obtain ⟨free, slabs, data, inv⟩ := empty
  have stamps := (stampInv_nil inv).run direct inv ok ran
  rw [List.nil_append] at stamps
  exact stamps.access member (ok c member)

end Runs

/-- A page has the rights of its last call when that call asks for data, or when every table
on the way was made for an executable page; and the order of calls for distinct pages does
not matter when it does not decide that. -/
theorem access_latest_iff (offset : Nat) (pages : List Nat) (root : Nat) (k k' : Kernel)
    (calls : List MapCall) (direct : Direct offset pages)
    (empty : EmptyUserHalf offset pages root k) (ok : ∀ c ∈ calls, c.Ok)
    (ran : mapCalls offset root calls k = .ok k') :
    (AccessLatest offset root calls k' ↔ ∀ c ∈ calls, ∀ d, latest calls c.page = some d →
      d.exec = true → MadeExecutable calls c.page) ∧
    ∀ calls' k'', calls.Perm calls' → (calls.map MapCall.page).Nodup →
      mapCalls offset root calls' k = .ok k'' →
      ((∀ c ∈ calls, access offset k''.mem root c.page = access offset k'.mem root c.page) ↔
        ∀ c ∈ calls, c.exec = true → (MadeExecutable calls c.page ↔ MadeExecutable calls' c.page)) := by
  have same (a b : Bool) : a = b ↔ (a = true ↔ b = true) := by
    cases a <;> cases b <;> simp
  constructor
  · apply forall₂_congr
    intro c member
    obtain ⟨d, last, execute, rights, exactly⟩ := access_run direct empty ok ran member
    rw [rights, last]
    simp only [Option.map_some, MapCall.access, Option.some.injEq, Access.mk.injEq, true_and,
      forall_eq']
    rw [same, exactly]
    tauto
  · intro calls' k'' perm nodup ran'
    apply forall₂_congr
    intro c member
    obtain ⟨d, last, execute, rights, exactly⟩ := access_run direct empty ok ran member
    obtain ⟨d', last', execute', rights', exactly'⟩ := access_run direct empty
      (fun e inList => ok e (perm.mem_iff.mpr inList)) ran' (perm.mem_iff.mp member)
    obtain rfl := Option.some.inj (last.symm.trans (latest_of_nodup nodup member))
    obtain rfl := Option.some.inj (last'.symm.trans
      (latest_of_nodup ((perm.map _).nodup_iff.mp nodup) (perm.mem_iff.mp member)))
    rw [rights, rights', Option.some.injEq, Access.mk.injEq]
    simp only [true_and]
    rw [same, exactly, exactly']
    tauto

theorem mapCalls_enough {offset : Nat} {pages : List Nat} {root : Nat} {k : Kernel}
    {free : List Nat} {slabs : List Slab} {tables : List (List Nat × Nat)} {data : Multiset Nat}
    (direct : Direct offset pages) (calls : List MapCall)
    (inv : PagingInv offset pages root 256 k free slabs tables data) (ok : ∀ c ∈ calls, c.Ok)
    (enough : 3 * calls.length ≤ free.length) : ∃ k', mapCalls offset root calls k = .ok k' := by
  induction calls generalizing k free tables with
  | nil => exact ⟨k, rfl⟩
  | cons c rest ih =>
      have known : Known (fun _ => True) tables := fun _ _ => trivial
      rw [List.length_cons] at enough
      rcases map_spec inv direct (userFlags_bits c.exec) c.virt c.phys known
          (fun _ _ => trivial) (under_user (ok c List.mem_cons_self).page_lt) with
        ⟨few, -⟩ | ⟨k₁, free₁, tables₁, ran, inv₁, -, -, -, taken, -⟩
      · omega
      · have few := taken.few
        obtain ⟨k', more⟩ := ih inv₁ (fun d member => ok d (List.mem_cons_of_mem c member))
          (by omega)
        exact ⟨k', by rw [mapCalls, ran, ok_bind, more]⟩

theorem machine_calls (calls : List MapCall) (ok : ∀ c ∈ calls, c.Ok) (few : calls.length ≤ 100) :
    ∃ root k k', EmptyUserHalf machine.offset machine.pages root k ∧
      mapCalls machine.offset root calls k = .ok k' := by
  have direct := pages_direct machine
  rcases pmmInit_spec machine fun _ => 0 with
    ⟨short, -⟩ | ⟨k₀, free, slabs, -, heap, more, -, -, -⟩
  · rw [machine_pages] at short
    omega
  rw [machine_pages] at more
  cases free with
  | nil => rw [List.length_nil] at more; omega
  | cons page free =>
      rw [List.length_cons] at more
      obtain ⟨whole, -⟩ := KernelPaging.start heap direct
      obtain ⟨-, -, -, -, back⟩ :=
        direct.phys_page (heap.mem_pages (Or.inl (List.mem_cons_self : page ∈ page :: free)))
      rw [KernelPaging, Kernel.root, back] at whole
      have inv := whole.lower_half
      obtain ⟨k', ran⟩ := mapCalls_enough direct calls inv ok (by omega)
      exact ⟨page, _, k', ⟨free, slabs, 0, inv⟩, ran⟩

def dataThenCode : List MapCall := [⟨0x1000, 0x5000, false⟩, ⟨0x2000, 0x6000, true⟩]

theorem dataThenCode_ok : ∀ c ∈ dataThenCode, c.Ok := by
  intro c member
  simp only [dataThenCode, List.mem_cons, List.not_mem_nil, or_false] at member
  rcases member with rfl | rfl
  · exact ⟨by decide, by decide, by decide⟩
  · exact ⟨by decide, by decide, by decide⟩

/-- The code cannot be executed. -/
theorem access_not_latest : ∃ root k k',
    EmptyUserHalf machine.offset machine.pages root k ∧ (∀ c ∈ dataThenCode, c.Ok) ∧
    mapCalls machine.offset root dataThenCode k = .ok k' ∧
    ¬ AccessLatest machine.offset root dataThenCode k' := by
  obtain ⟨root, k, k', empty, ran⟩ := machine_calls dataThenCode dataThenCode_ok (by decide)
  refine ⟨root, k, k', empty, dataThenCode_ok, ran, ?_⟩
  intro latest
  have member : (⟨0x2000, 0x6000, true⟩ : MapCall) ∈ dataThenCode := by simp [dataThenCode]
  obtain ⟨d, last, execute, rights, exactly⟩ :=
    access_run (pages_direct machine) empty dataThenCode_ok ran member
  obtain rfl := Option.some.inj (last.symm.trans (latest_of_nodup (by decide) member))
  have wanted := latest _ member
  rw [rights, last] at wanted
  have executable : execute = true := congrArg Access.execute (Option.some.inj wanted)
  have made := (exactly.mp executable).2 1 (by decide) (by decide) ⟨0x1000, 0x5000, false⟩ rfl
  cases made

/-- Two calls for code. -/
theorem access_latest_iff_code : ∃ root k k',
    EmptyUserHalf machine.offset machine.pages root k ∧
    mapCalls machine.offset root [⟨0x1000, 0x5000, true⟩, ⟨0x2000, 0x6000, true⟩] k = .ok k' ∧
    AccessLatest machine.offset root [⟨0x1000, 0x5000, true⟩, ⟨0x2000, 0x6000, true⟩] k' := by
  have ok : ∀ c ∈ [(⟨0x1000, 0x5000, true⟩ : MapCall), ⟨0x2000, 0x6000, true⟩], c.Ok := by
    intro c member
    simp only [List.mem_cons, List.not_mem_nil, or_false] at member
    rcases member with rfl | rfl
    · exact ⟨by decide, by decide, by decide⟩
    · exact ⟨by decide, by decide, by decide⟩
  obtain ⟨root, k, k', empty, ran⟩ := machine_calls _ ok (by decide)
  have exactly := (access_latest_iff machine.offset machine.pages root k k' _
    (pages_direct machine) empty ok ran).1
  refine ⟨root, k, k', empty, ran, exactly.mpr ?_⟩
  intro c member d last executable n above level e made
  have inCalls := List.mem_of_find?_eq_some made
  simp only [List.mem_cons, List.not_mem_nil, or_false] at inCalls
  rcases inCalls with rfl | rfl <;> rfl

end Nyaux.Mm
