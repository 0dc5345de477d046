import Nyaux.Fs.Tar
import Nyaux.Fs.Tree

/-! Loading an archive: the tree is the one the archive lists, unless a file is larger than
what one heap block can back. At the repository's own flags none is. -/

namespace Nyaux.Fs

open Word CString

def Kind.typeflag : Kind → UInt8
  | .directory => 53
  | .regular _ => 48
  | .symlink _ => 50

def Kind.content : Kind → List UInt8
  | .regular content => content
  | _ => []

def Kind.linkname : Kind → List UInt8
  | .symlink target => target
  | _ => []

/-- A size that one heap block backs. -/
def Entry.Backed (overflow : Mm.Overflow) (e : Entry) : Prop :=
  e.kind.content.length ≤ overflow.limit

instance (overflow : Mm.Overflow) (e : Entry) : Decidable (e.Backed overflow) :=
  inferInstanceAs (Decidable (_ ≤ _))

def octal (n : Nat) : List UInt8 :=
  (List.range 11).map fun j => UInt8.ofNat (48 + n / 8 ^ (10 - j) % 8)

structure Member where
  entry : Entry
  header : List UInt8
  padding : List UInt8
  header_length : header.length = 512
  name_ends : 0 ∈ header.take 100
  name_field : cstring header = entry.name
  type_field : header[156]? = some entry.kind.typeflag
  size_field : (header.drop 124).take 11 = octal entry.kind.content.length
  link_ends : 0 ∈ (header.drop 157).take 100
  link_field : cstring (header.drop 157) = entry.kind.linkname
  small : entry.kind.content.length < 2 ^ 32
  padded : 512 ∣ entry.kind.content.length + padding.length
  padding_short : padding.length < 512
  relative : entry.name.head? ≠ some slash
  trailing : entry.kind = .directory → entry.name.getLast? = some slash

def Member.bytes (m : Member) : List UInt8 := m.header ++ (m.entry.kind.content ++ m.padding)

/-- A well-formed archive, ended by at least two zero blocks. -/
structure Archive where
  members : List Member
  zeroBlocks : Nat
  ended : 2 ≤ zeroBlocks
  listed : Listed (members.map Member.entry)

def Archive.entries (a : Archive) : List Entry := a.members.map Member.entry

def Archive.bytes (a : Archive) : List UInt8 :=
  a.members.flatMap Member.bytes ++ List.replicate (512 * a.zeroBlocks) 0

/-- Parsing ends, and leaves exactly the archive's tree. -/
def LoadsFaithfully (heap : Heap) (depth : Nat) (a : Archive) : Prop :=
  ∃ fs, parseTarAndPopulateTmpfs heap depth a.bytes = some fs ∧ IsTree fs a.entries

theorem charValue_digit (d : Nat) (digit : d < 8) :
    charValue (UInt8.ofNat (48 + d)) - 48 = d := by
  have all : ∀ d < 8, charValue (UInt8.ofNat (48 + d)) - 48 = d := by decide
  exact all d digit

theorem octal_sum (n width : Nat) :
    ((List.range width).map fun j => n / 8 ^ j % 8 * 8 ^ j).sum = n % 8 ^ width := by
  induction width with
  | zero => simp [Nat.mod_one]
  | succ width ih =>
      rw [List.range_succ, List.map_append, List.sum_append, ih, List.map_singleton,
        List.sum_singleton, pow_succ, Nat.mod_mul]
      ring

theorem getsize_octal (n : Nat) (rest : List UInt8) (small : n < 2 ^ 32) :
    getsize (octal n ++ rest) = n := by
  have digits : ∀ j ∈ List.range 11,
      (charValue ((octal n ++ rest).getD j 0) - 48) * 8 ^ (10 - j) =
        ((n / 8 ^ (10 - j) % 8 * 8 ^ (10 - j) : Nat) : Int) := by
    intro j member
    have inside := List.mem_range.mp member
    have digit : (octal n ++ rest).getD j 0 = UInt8.ofNat (48 + n / 8 ^ (10 - j) % 8) := by
      rw [List.getD_eq_getElem?_getD, List.getElem?_append_left (by simpa [octal] using inside)]
      simp [octal, inside]
    rw [digit, charValue_digit _ (Nat.mod_lt _ (by decide))]
    push_cast
    rfl
  have sum : ((List.range 11).map fun j => n / 8 ^ (10 - j) % 8 * 8 ^ (10 - j)).sum = n := by
    have reversed := List.sum_reverse
      ((List.range 11).map fun j => n / 8 ^ (10 - j) % 8 * 8 ^ (10 - j))
    have forward := octal_sum n 11
    rw [Nat.mod_eq_of_lt (by omega)] at forward
    exact reversed.symm.trans forward
  rw [getsize, List.map_congr_left digits]
  have total : ((List.range 11).map fun j =>
      ((n / 8 ^ (10 - j) % 8 * 8 ^ (10 - j) : Nat) : Int)).sum = (n : Int) := by
    conv_rhs => rw [← sum]
    rw [Nat.cast_list_sum, List.map_map]
    rfl
  rw [total]
  omega

section Fields

variable (m : Member) (more : List UInt8)

theorem cstring_of_take {memory : List UInt8} (ends : ∃ n, 0 ∈ memory.take n)
    (rest : List UInt8) : cstring (memory ++ rest) = cstring memory := by
  obtain ⟨n, member⟩ := ends
  exact cstring_append memory rest (List.mem_of_mem_take member)

theorem bytes_name : cstring (m.bytes ++ more) = m.entry.name := by
  rw [Member.bytes, List.append_assoc, cstring_of_take ⟨100, m.name_ends⟩, m.name_field]

theorem drop_header (k : Nat) (inside : k ≤ 512) :
    (m.bytes ++ more).drop k =
      m.header.drop k ++ (m.entry.kind.content ++ (m.padding ++ more)) := by
  rw [Member.bytes, List.append_assoc, List.append_assoc,
    List.drop_append_of_le_length (by rw [m.header_length]; exact inside)]

theorem bytes_size : getsize ((m.bytes ++ more).drop 124) = m.entry.kind.content.length := by
  rw [drop_header m more 124 (by decide), ← List.take_append_drop 11 (m.header.drop 124),
    m.size_field, List.append_assoc]
  exact getsize_octal _ _ m.small

theorem bytes_link : cstring ((m.bytes ++ more).drop 157) = m.entry.kind.linkname := by
  rw [drop_header m more 157 (by decide), cstring_of_take ⟨100, m.link_ends⟩, m.link_field]

theorem bytes_type : (m.bytes ++ more).getD 156 0 = m.entry.kind.typeflag := by
  have inside : 156 < m.header.length := by rw [m.header_length]; decide
  rw [List.getD_eq_getElem?_getD, Member.bytes, List.append_assoc,
    List.getElem?_append_left inside, m.type_field]
  rfl

theorem bytes_typeString :
    typeString (m.bytes ++ more) = m.entry.kind.typeflag :: m.entry.kind.linkname := by
  have flag := bytes_type m more
  have link := bytes_link m more
  have shape : (m.bytes ++ more).drop 156 =
      m.entry.kind.typeflag :: (m.bytes ++ more).drop 157 := by
    have inside : 156 < (m.bytes ++ more).length := by
      rw [Member.bytes, List.length_append, List.length_append, m.header_length]
      omega
    rw [List.drop_eq_getElem_cons inside, ← flag, List.getD_eq_getElem _ _ inside]
  rw [typeString, shape]
  rw [cstring] at link ⊢
  rw [List.takeWhile_cons_of_pos, link]
  cases m.entry.kind <;> rfl

theorem bytes_content :
    ((m.bytes ++ more).drop 512).take (getsize ((m.bytes ++ more).drop 124)) =
      m.entry.kind.content := by
  rw [bytes_size, drop_header m more 512 (le_refl _),
    List.drop_eq_nil_of_le (by rw [m.header_length]), List.nil_append, List.take_left]

theorem bytes_length : m.bytes.length = 512 + alignUp m.entry.kind.content.length 512 := by
  have small := m.small
  have short := m.padding_short
  obtain ⟨k, total⟩ := m.padded
  have rounded := alignUp_pow m.entry.kind.content.length 9 (by decide)
  rw [add64_of_lt (by omega)] at rounded
  norm_num at rounded
  rw [Member.bytes, List.length_append, List.length_append, m.header_length, rounded]
  omega

theorem bytes_next : nextHeader (m.bytes ++ more) = more := by
  rw [nextHeader, bytes_size, ← bytes_length, List.drop_left]

end Fields

theorem parseTar_zeros (heap : Heap) (depth : Nat) (fs : Tmpfs) (n : Nat) :
    parseTar heap depth (List.replicate n 0) fs = some fs := by
  induction n using Nat.strong_induction_on with
  | _ n ih =>
      rw [parseTar]
      split
      · rename_i more
        rw [List.length_replicate] at more
        have type : typeString (List.replicate n 0) = [] := by
          obtain ⟨k, left⟩ : ∃ k, n - 156 = k + 1 := ⟨n - 157, by omega⟩
          rw [typeString, List.drop_replicate, left, List.replicate_succ, cstring]
          rfl
        have name : cstring (List.replicate n 0) = [] := by
          obtain ⟨k, rfl⟩ : ∃ k, n = k + 1 := ⟨n - 1, by omega⟩
          rw [List.replicate_succ, cstring]
          rfl
        have nothing : populate heap depth (List.replicate n 0) fs = some fs := by
          rw [populate, type, name]
          rfl
        simp only [nothing, Option.bind_some, nextHeader]
        generalize alignUp (getsize ((List.replicate n 0).drop 124)) 512 = skipped
        have left : (List.replicate n (0 : UInt8)).drop (512 + skipped) =
            List.replicate (n - (512 + skipped)) 0 := by simp
        rw [left]
        exact ih _ (by omega)
      · rfl

theorem grow_set {fs : Tmpfs} {par : Nat} {parent : Vnode} {c : List UInt8} (new final : Vnode) :
    (grow fs par parent c new).vnodes.set fs.vnodes.length final =
      (grow fs par parent c final).vnodes := by
  simp [grow]

theorem vnodeRdwrWrite_new (overflow : Mm.Overflow) (buf : List UInt8) (fresh : Block)
    (word : buf.length < 2 ^ 64) :
    if buf.length ≤ overflow.limit then
      ∃ v, vnodeRdwrWrite overflow (newVnode .file) buf 0 fresh = some (0, v) ∧ v.type = .file ∧
        v.dir = [] ∧ v.node.Contains buf
    else vnodeRdwrWrite overflow (newVnode .file) buf 0 fresh = none := by
  have size : add64 buf.length 0 = buf.length := add64_of_lt word
  split
  · rename_i fits
    refine ⟨_, by
      simp only [vnodeRdwrWrite, newVnode, zeroNode, if_true, size, kmalloc, if_pos fits]
      rfl, rfl, rfl, rfl, ?_⟩
    intro i c at_
    simp [memcpyAt, at_]
  · rename_i large
    simp only [vnodeRdwrWrite, newVnode, zeroNode, if_true, size, kmalloc, if_neg large]
    rfl

theorem writeNew_grow (heap : Heap) (fs : Tmpfs) (par : Nat) (parent : Vnode) (c : List UInt8)
    (buf : List UInt8) (type : VnodeType) (word : buf.length < 2 ^ 64) :
    if buf.length ≤ heap.overflow.limit then
      ∃ v : Vnode, writeNew heap (grow fs par parent c (newVnode .file)) fs.vnodes.length buf type =
        some (grow fs par parent c v) ∧ v.type = type ∧ v.dir = [] ∧ v.node.Contains buf
    else
      writeNew heap (grow fs par parent c (newVnode .file)) fs.vnodes.length buf type = none := by
  have written := vnodeRdwrWrite_new heap.overflow buf (heap.data fs.vnodes.length) word
  split
  · rename_i fits
    rw [if_pos fits] at written
    obtain ⟨v, result, -, empty, contains⟩ := written
    refine ⟨{ v with type := type }, ?_, rfl, empty, contains⟩
    simp only [writeNew, grow_new, Option.bind_eq_bind, Option.bind_some, result, grow_set]
  · rename_i large
    rw [if_neg large] at written
    simp only [writeNew, grow_new, Option.bind_eq_bind, Option.bind_some, written,
      Option.bind_none]

section Step

variable {fs : Tmpfs} {done : List Entry} {m : Member}

theorem parent_of_next (depth : Nat) (inv : TreeInv fs done) (listed : Listed (done ++ [m.entry])) :
    ∃ p c par parent, m.entry.path = p ++ [c] ∧ (paths done)[par]? = some p ∧
      fs.vnodes[par]? = some parent ∧ parent.type = .dir ∧
      ∀ (scratch : Scratch) (last : List UInt8),
        vnodePathLookup fs scratch (depth + 1) 0 m.entry.name true last = some ⟨some par, c⟩ := by
  have named := listed.named m.entry (by simp)
  obtain ⟨p, c, path⟩ := (List.eq_nil_or_concat' m.entry.path).resolve_left named
  have place : ∃ par, (paths done)[par]? = some p ∧ IsDir fs par := by
    rcases listed.parents done m.entry [] (by simp) with top | ⟨d, earlier, same, directory⟩
    · rw [path, List.dropLast_concat] at top
      exact ⟨0, by rw [top]; rfl, inv.root⟩
    · rw [path, List.dropLast_concat] at same
      obtain ⟨j, atJ⟩ := List.mem_iff_getElem?.mp earlier
      obtain ⟨vnode, present, holds⟩ := inv.kinds j d atJ
      rw [directory] at holds
      refine ⟨j + 1, ?_, vnode, present, holds⟩
      rw [paths, List.getElem?_cons_succ, List.getElem?_map, atJ, ← same]
      rfl
  obtain ⟨par, atPar, directory⟩ := place
  have absent : vnodeLookup fs par c = none := by
    rw [Option.eq_none_iff_forall_ne_some]
    intro w found
    obtain ⟨-, q, atQ, atW⟩ := (lookup_iff inv).mp found
    obtain rfl : p = q := Option.some.inj (atPar.symm.trans atQ)
    have inside := paths_inside inv atW
    have same := nodup_index listed.paths_nodup ((paths_old inv inside).trans atW)
      ((paths_new inv).trans (congrArg some path))
    omega
  obtain ⟨parent, present, type⟩ := directory
  have plain : 0 ∉ m.entry.name := by
    rw [← m.name_field]
    exact zero_not_mem_cstring m.header
  refine ⟨p, c, par, parent, path, atPar, present, type, fun scratch last => ?_⟩
  exact vnodePathLookup_parent fs scratch depth par m.entry.name last p c plain m.relative
    ⟨parent, present, type⟩ absent path ((resolve_iff inv listed.prefix p par).mpr atPar)

theorem populate_member (heap : Heap) (depth : Nat) (inv : TreeInv fs done) (listed : Listed (done ++ [m.entry]))
    (more : List UInt8) :
    if m.entry.Backed heap.overflow then
      ∃ fs', populate heap (depth + 1) (m.bytes ++ more) fs = some fs' ∧
        TreeInv fs' (done ++ [m.entry])
    else populate heap (depth + 1) (m.bytes ++ more) fs = none := by
  obtain ⟨p, c, par, parent, path, atPar, present, directory, lookup⟩ :=
    parent_of_next depth inv listed
  have nonempty : m.entry.name ≠ [] := by
    intro empty
    have := listed.named m.entry (by simp)
    rw [Entry.path, empty, components_nil] at this
    exact this rfl
  have created : ∀ (scratch : Scratch),
      vfsCreate fs scratch (depth + 1) 0 m.entry.name 0 =
        some (0, grow fs par parent c (newVnode .dir), some fs.vnodes.length) ∧
      vfsCreate fs scratch (depth + 1) 0 m.entry.name 1 =
        some (0, grow fs par parent c (newVnode .file), some fs.vnodes.length) := by
    intro scratch
    constructor <;>
      simp [vfsCreate, nonempty, lookup scratch, vnodeMkdir, vnodeCreate,
        addEntry_grow _ present directory]
  have add : ∀ new : Vnode, new.dir = [] → new.Holds m.entry.kind →
      TreeInv (grow fs par parent c new) (done ++ [m.entry]) :=
    fun new empty holds => inv_add inv listed path atPar present directory empty holds
  have name := bytes_name m more
  have type := bytes_typeString m more
  have flag := bytes_type m more
  have content := bytes_content m more
  have link := bytes_link m more
  have small := m.small
  have short : m.entry.kind.linkname.length ≤ 512 := by
    rw [← m.link_field, ← m.header_length]
    exact (List.takeWhile_sublist _).length_le.trans (List.drop_sublist _ _).length_le
  cases kind : m.entry.kind with
  | directory =>
      rw [kind] at type
      have dir := add (newVnode .dir) rfl (by rw [kind]; rfl)
      have fits : m.entry.Backed heap.overflow := by
        rw [Entry.Backed, kind]
        exact Nat.zero_le _
      rw [if_pos fits]
      refine ⟨_, ?_, dir⟩
      simp [populate, name, type, Kind.typeflag, Kind.linkname, strncmp, created]
  | regular bytes =>
      rw [kind] at type content small
      have written := writeNew_grow heap fs par parent c bytes .file
        (by simp only [Kind.content] at small; omega)
      have run : populate heap (depth + 1) (m.bytes ++ more) fs =
          writeNew heap (grow fs par parent c (newVnode .file)) fs.vnodes.length bytes .file := by
        rw [populate, name, type, content]
        simp [Kind.typeflag, Kind.linkname, Kind.content, strncmp, created]
      rw [run]
      have same : m.entry.Backed heap.overflow ↔ bytes.length ≤ heap.overflow.limit := by
        rw [Entry.Backed, kind]
        rfl
      by_cases fits : bytes.length ≤ heap.overflow.limit
      · rw [if_pos fits] at written
        obtain ⟨v, result, file, empty, contains⟩ := written
        rw [if_pos (same.mpr fits)]
        exact ⟨_, result, add v empty (by rw [kind]; exact ⟨file, contains⟩)⟩
      · rw [if_neg fits] at written
        rw [if_neg fun backed => fits (same.mp backed)]
        exact written
  | symlink target =>
      rw [kind] at type link flag short
      simp only [Kind.linkname] at short
      have written := writeNew_grow heap fs par parent c
        (target ++ [0]) .symlink (by rw [List.length_append, List.length_singleton]; omega)
      have large := heap.overflow.limit_large
      rw [if_pos (by rw [List.length_append, List.length_singleton]; omega)] at written
      obtain ⟨v, result, symlink, empty, contains⟩ := written
      have fits : m.entry.Backed heap.overflow := by
        rw [Entry.Backed, kind]
        exact Nat.zero_le _
      rw [if_pos fits]
      refine ⟨_, ?_, add v empty (by rw [kind]; exact ⟨symlink, contains⟩)⟩
      rw [← result, populate, name, type, flag, link]
      simp [Kind.typeflag, Kind.linkname, strncmp, created]

end Step

theorem treeInv_empty : TreeInv emptyRoot [] := by
  refine ⟨rfl, ⟨newVnode .dir, rfl, rfl⟩, fun k e at_ => by simp at at_, ?_, ?_⟩
  · intro v vnode found c w
    have empty : vnode.dir = [] := by
      have := List.mem_of_getElem? found
      rw [emptyRoot, List.mem_singleton] at this
      rw [this]
      rfl
    rw [empty]
    constructor
    · intro member
      simp at member
    · rintro ⟨p, -, atW⟩
      have := List.mem_of_getElem? atW
      simp [paths] at this
  · intro vnode member
    rw [emptyRoot, List.mem_singleton] at member
    rw [member]
    exact List.nodup_nil

theorem parseTar_step (heap : Heap) (depth : Nat) (fs : Tmpfs) (m : Member) (more : List UInt8)
    (ended : 1024 ≤ more.length) :
    parseTar heap depth (m.bytes ++ more) fs =
      (populate heap depth (m.bytes ++ more) fs).bind fun fs' => parseTar heap depth more fs' := by
  have length : 1024 < (m.bytes ++ more).length := by
    rw [List.length_append, bytes_length]
    omega
  conv_lhs => rw [parseTar]
  simp only [dif_pos length, bytes_next]

theorem parseTar_members (heap : Heap) (depth zeroBlocks : Nat) (ended : 2 ≤ zeroBlocks)
    (rest : List Member) (done : List Entry) (fs : Tmpfs) (inv : TreeInv fs done)
    (listed : Listed (done ++ rest.map Member.entry)) :
    if ∀ e ∈ rest.map Member.entry, e.Backed heap.overflow then
      ∃ fs', parseTar heap (depth + 1)
          (rest.flatMap Member.bytes ++ List.replicate (512 * zeroBlocks) 0) fs = some fs' ∧
        TreeInv fs' (done ++ rest.map Member.entry)
    else parseTar heap (depth + 1)
      (rest.flatMap Member.bytes ++ List.replicate (512 * zeroBlocks) 0) fs = none := by
  induction rest generalizing done fs with
  | nil =>
      rw [if_pos (by simp)]
      exact ⟨fs, parseTar_zeros heap _ fs _, by simpa using inv⟩
  | cons m rest ih =>
      have listed' : Listed ((done ++ [m.entry]) ++ rest.map Member.entry) := by
        simpa using listed
      have one := populate_member heap depth inv listed'.prefix
        (rest.flatMap Member.bytes ++ List.replicate (512 * zeroBlocks) 0)
      have step := parseTar_step heap (depth + 1) fs m
        (rest.flatMap Member.bytes ++ List.replicate (512 * zeroBlocks) 0)
        (by rw [List.length_append, List.length_replicate]; omega)
      rw [List.flatMap_cons, List.append_assoc, step]
      have every : (∀ e ∈ (m :: rest).map Member.entry, e.Backed heap.overflow) ↔
          m.entry.Backed heap.overflow ∧
            ∀ e ∈ rest.map Member.entry, e.Backed heap.overflow := List.forall_mem_cons
      by_cases fits : m.entry.Backed heap.overflow
      · rw [if_pos fits] at one
        obtain ⟨fs', populated, next⟩ := one
        rw [populated, Option.bind_some]
        have later := ih (done ++ [m.entry]) fs' next listed'
        by_cases all : ∀ e ∈ rest.map Member.entry, e.Backed heap.overflow
        · rw [if_pos all] at later
          rw [if_pos (every.mpr ⟨fits, all⟩)]
          simpa using later
        · rw [if_neg all] at later
          rw [if_neg fun backed => all (every.mp backed).2]
          exact later
      · rw [if_neg fits] at one
        rw [if_neg fun backed => fits (every.mp backed).1, one]
        rfl

theorem parseTar_archive (heap : Heap) (depth : Nat) (a : Archive) :
    if ∀ e ∈ a.entries, e.Backed heap.overflow then
      ∃ fs, parseTarAndPopulateTmpfs heap (depth + 1) a.bytes = some fs ∧ TreeInv fs a.entries
    else parseTarAndPopulateTmpfs heap (depth + 1) a.bytes = none :=
  parseTar_members heap depth a.zeroBlocks a.ended a.members [] emptyRoot treeInv_empty a.listed

/-- Every well-formed archive is loaded faithfully, whatever the heap holds, exactly when no
file is larger than a block of the heap. -/
theorem loadsFaithfully_iff (heap : Heap) (depth : Nat) (a : Archive) :
    LoadsFaithfully heap (depth + 1) a ↔ ∀ e ∈ a.entries, e.Backed heap.overflow := by
  have run := parseTar_archive heap depth a
  constructor
  · rintro ⟨fs, loaded, -⟩
    by_contra large
    rw [if_neg large] at run
    exact absurd (loaded.symm.trans run) (Option.some_ne_none fs)
  · intro small
    rw [if_pos small] at run
    obtain ⟨fs, loaded, inv⟩ := run
    exact ⟨fs, loaded, isTree_of_inv inv a.listed⟩

theorem Member.backed (m : Member) : m.entry.Backed .widens :=
  m.small.le.trans (by decide)

/-- As the kernel is compiled by its own makefile, every well-formed archive is loaded faithfully,
whatever the heap holds. -/
theorem initramfs_faithful (data : Nat → Block) (scratch : Nat → Scratch) (depth : Nat)
    (a : Archive) : LoadsFaithfully ⟨.widens, data, scratch⟩ (depth + 1) a := by
  refine (loadsFaithfully_iff _ depth a).mpr fun e member => ?_
  obtain ⟨m, -, rfl⟩ := List.mem_map.mp member
  exact m.backed

/-- The header of a file named `a`, up to its type. -/
def headerFront (n : Nat) : List UInt8 :=
  (97 :: 0 :: List.replicate 122 0) ++ (octal n ++ List.replicate 21 0)

theorem octal_length (n : Nat) : (octal n).length = 11 := by
  rw [octal, List.length_map, List.length_range]

theorem headerFront_length (n : Nat) : (headerFront n).length = 156 := by
  simp only [headerFront, List.length_append, List.length_cons, List.length_replicate,
    octal_length]

end Nyaux.Fs
