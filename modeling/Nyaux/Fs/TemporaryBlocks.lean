import Nyaux.Fs.Vfs

/-! The heap blocks that path operations take and give back.

A block is known by the place in the log at which it was handed out. -/

namespace Nyaux.Fs

open CString

inductive Purpose
  | temporary
  | node
  deriving DecidableEq

inductive HeapEvent
  | kmalloc (purpose : Purpose) (size : Nat)
  | kfree (block size : Nat)
  deriving DecidableEq

abbrev HeapLog := List HeapEvent

section Walk

variable (fs : Tmpfs) (follow : Nat → List UInt8 → HeapLog → Option (Option Nat × HeapLog))
  (getparent : Bool) (work : List UInt8) (pathlen : Nat)

/-- `walk`, with the log. -/
def walkLog : Nat → Nat → Nat → List UInt8 → HeapLog → Option (Found × HeapLog)
  | 0, _, cur, last, log => some (⟨some cur, last⟩, log)
  | fuel + 1, i, cur, last, log =>
      if i < pathlen then
        if work.getD i 0 = 0 then walkLog fuel (i + 1) cur last log
        else
          let component := cstring (work.drop i)
          if islast work pathlen i component.length && getparent then
            some (⟨some cur, component⟩, log)
          else
            match vnodeLookup fs cur component with
            | some res =>
                match (fs.vnodes[res]?).map Vnode.type with
                | some .dir => walkLog fuel (i + component.length + 1) res last log
                | some .symlink =>
                    (follow cur (walk.link fs res) log).map fun r => (⟨r.1, last⟩, r.2)
                | _ => some (⟨some res, last⟩, log)
            | none => some (⟨if getparent then some cur else none, component⟩, log)
      else some (⟨some cur, last⟩, log)

end Walk

/-- `vnode_path_lookup` takes `work_with_me` before it looks at the path. -/
def vnodePathLookupLog (fs : Tmpfs) (scratch : Scratch) : Nat → Nat → List UInt8 → Bool →
    List UInt8 → HeapLog → Option (Found × HeapLog)
  | 0, _, _, _, _, _ => none
  | depth + 1, cur, path, getparent, componentlast, log =>
      let start := if path.head? = some slash then 0 else cur
      walkLog fs (fun cur target log =>
          (vnodePathLookupLog fs scratch depth cur target false [] log).map fun r =>
            (r.1.vnode, r.2))
        getparent (workBuffer path scratch.garbage) path.length (path.length + 1) 0 start
        componentlast (log ++ [.kmalloc .temporary (path.length + 1)])

/-- `sizeof` of a vnode, a `tmpfs_dir`, a directory entry and a `tmpfs_node`. -/
def sizeofVnode : Nat := 40

def sizeofTmpfsDir : Nat := 8

def sizeofTmpfsDirEntry : Nat := 24

def sizeofTmpfsNode : Nat := 16

/-- The blocks of `vnode_mkdir`, which takes none when it fails. -/
def vnodeMkdirLog (fs : Tmpfs) (v : Nat) (name : List UInt8) (log : HeapLog) :
    Option (Tmpfs × Nat) × HeapLog :=
  match vnodeMkdir fs v name with
  | some made => (some made, log ++
      [.kmalloc .node sizeofVnode, .kmalloc .node sizeofTmpfsDir,
        .kmalloc .node sizeofTmpfsDirEntry, .kmalloc .node (name.length + 1)])
  | none => (none, log)

def vnodeCreateLog (fs : Tmpfs) (v : Nat) (name : List UInt8) (log : HeapLog) :
    Option (Tmpfs × Nat) × HeapLog :=
  match vnodeCreate fs v name with
  | some made => (some made, log ++
      [.kmalloc .node (name.length + 1), .kmalloc .node sizeofTmpfsDirEntry,
        .kmalloc .node sizeofVnode, .kmalloc .node sizeofTmpfsNode])
  | none => (none, log)

def madeOr (fs : Tmpfs) : Option (Tmpfs × Nat) → Tmpfs × Option Nat
  | some (fs', created) => (fs', some created)
  | none => (fs, none)

/-- `vfs_create`, with the log. -/
def vfsCreateLog (fs : Tmpfs) (scratch : Scratch) (depth indir : Nat) (path : List UInt8)
    (type : Nat) (log : HeapLog) : Option ((Int × Tmpfs × Option Nat) × HeapLog) :=
  if path = [] then some ((-1, fs, none), log)
  else do
    let component := log.length
    let (found, log) ← vnodePathLookupLog fs scratch depth indir path true
      (cstring scratch.component) (log ++ [.kmalloc .temporary (path.length + 1)])
    match found.vnode with
    | none => some ((-1, fs, none), log ++ [.kfree component (path.length + 1)])
    | some ourPar =>
        match type with
        | 0 =>
            let (made, log) := vnodeMkdirLog fs ourPar found.componentlast log
            some ((0, madeOr fs made), log ++ [.kfree component (path.length + 1)])
        | 1 =>
            let (made, log) := vnodeCreateLog fs ourPar found.componentlast log
            -- `strlen(path + 1)`
            some ((0, madeOr fs made), log ++ [.kfree component (path.length - 1)])
        | _ => some ((-1, fs, none), log)

section Erase

variable {fs : Tmpfs} {follow : Nat → List UInt8 → Option (Option Nat)}
  {followLog : Nat → List UInt8 → HeapLog → Option (Option Nat × HeapLog)}

theorem walkLog_erase
    (same : ∀ cur target log, (followLog cur target log).map Prod.fst = follow cur target)
    (getparent : Bool) (work : List UInt8) (pathlen fuel i cur : Nat) (last : List UInt8)
    (log : HeapLog) :
    (walkLog fs followLog getparent work pathlen fuel i cur last log).map Prod.fst =
      walk fs follow getparent work pathlen fuel i cur last := by
  induction fuel generalizing i cur with
  | zero => rfl
  | succ fuel ih =>
      rw [walkLog, walk]
      split
      · split
        · exact ih (i + 1) cur
        · dsimp only
          split
          · rfl
          · cases vnodeLookup fs cur (cstring (work.drop i)) with
            | none => rfl
            | some res =>
                dsimp only
                cases (fs.vnodes[res]?).map Vnode.type with
                | none => rfl
                | some type =>
                    cases type with
                    | dir => exact ih _ res
                    | file => rfl
                    | symlink =>
                        rw [← same cur (walk.link fs res) log, Option.map_map, Option.map_map]
                        rfl
      · rfl

theorem vnodePathLookupLog_erase (fs : Tmpfs) (scratch : Scratch) (depth cur : Nat)
    (path : List UInt8) (getparent : Bool) (last : List UInt8) (log : HeapLog) :
    (vnodePathLookupLog fs scratch depth cur path getparent last log).map Prod.fst =
      vnodePathLookup fs scratch depth cur path getparent last := by
  induction depth generalizing cur path getparent last log with
  | zero => rfl
  | succ depth ih =>
      rw [vnodePathLookupLog, vnodePathLookup]
      apply walkLog_erase
      intro cur target log
      rw [← ih cur target false [] log, Option.map_map, Option.map_map]
      rfl

theorem vfsCreateLog_erase (scratch : Scratch) (depth indir : Nat) (path : List UInt8)
    (type : Nat) (log : HeapLog) :
    (vfsCreateLog fs scratch depth indir path type log).map Prod.fst =
      vfsCreate fs scratch depth indir path type := by
  rw [vfsCreateLog, vfsCreate]
  split
  · rfl
  · rw [← vnodePathLookupLog_erase fs scratch depth indir path true (cstring scratch.component)
      (log ++ [.kmalloc .temporary (path.length + 1)])]
    cases vnodePathLookupLog fs scratch depth indir path true (cstring scratch.component)
        (log ++ [.kmalloc .temporary (path.length + 1)]) with
    | none => rfl
    | some r =>
        obtain ⟨⟨vnode, name⟩, log'⟩ := r
        cases vnode with
        | none => rfl
        | some ourPar =>
            match type with
            | 0 =>
                simp only [Option.map_some, Option.bind_eq_bind, Option.bind_some, vnodeMkdirLog]
                cases vnodeMkdir fs ourPar name <;> rfl
            | 1 =>
                simp only [Option.map_some, Option.bind_eq_bind, Option.bind_some, vnodeCreateLog]
                cases vnodeCreate fs ourPar name <;> rfl
            | _ + 2 => rfl

end Erase

def HeapLog.frees (log : HeapLog) (block : Nat) : List Nat :=
  log.filterMap fun
    | .kfree b size => if b = block then some size else none
    | .kmalloc _ _ => none

/-- Every temporary buffer was given back once, with a size on the same side of the limit between
slabs and regions as the size it was asked for with. -/
def Released (log : HeapLog) : Prop :=
  ∀ block size, log[block]? = some (.kmalloc .temporary size) →
    ∃ freed, log.frees block = [freed] ∧ (freed < 1024 ↔ size < 1024)

/-- What is left over belongs to the tree. -/
def OnlyNodesLeft (log : HeapLog) : Prop :=
  ∀ block purpose size, log[block]? = some (.kmalloc purpose size) → log.frees block = [] →
    purpose = .node

/-- A path operation, with what the heap holds and the symlinks that it may follow. -/
inductive PathCall
  | lookup (scratch : Scratch) (depth cur : Nat) (path : List UInt8) (getparent : Bool)
      (componentlast : List UInt8)
  | create (scratch : Scratch) (depth indir : Nat) (path : List UInt8) (type : Nat)

def PathCall.run (fs : Tmpfs) (log : HeapLog) : PathCall → Option (Tmpfs × HeapLog)
  | .lookup scratch depth cur path getparent componentlast =>
      (vnodePathLookupLog fs scratch depth cur path getparent componentlast log).map fun r =>
        (fs, r.2)
  | .create scratch depth indir path type =>
      (vfsCreateLog fs scratch depth indir path type log).map fun r => (r.1.2.1, r.2)

def runCalls : List PathCall → Tmpfs → HeapLog → Option (Tmpfs × HeapLog)
  | [], fs, log => some (fs, log)
  | call :: rest, fs, log => (call.run fs log).bind fun r => runCalls rest r.1 r.2

/-- A create of the empty path, which comes back before it takes anything. -/
def PathCall.TakesNothing : PathCall → Prop
  | .lookup .. => False
  | .create _ _ _ path _ => path = []

def Leaked (log : HeapLog) : Prop :=
  ∃ block size, log[block]? = some (.kmalloc .temporary size) ∧ ∀ freed, .kfree block freed ∉ log

def OwnFrees (log : HeapLog) : Prop := ∀ block freed, .kfree block freed ∈ log → block < log.length

section Log

variable {log log' later : HeapLog} {block size : Nat}

theorem mem_frees {freed : Nat} : freed ∈ log.frees block ↔ .kfree block freed ∈ log := by
  rw [HeapLog.frees, List.mem_filterMap]
  constructor
  · rintro ⟨event, member, same⟩
    cases event with
    | kmalloc purpose size => cases same
    | kfree b size =>
        dsimp only at same
        split at same
        · rename_i here
          obtain rfl := Option.some.inj same
          exact here ▸ member
        · cases same
  · intro member
    exact ⟨_, member, if_pos rfl⟩

theorem Released.not_leaked (released : Released log) : ¬ Leaked log := by
  rintro ⟨block, size, taken, kept⟩
  obtain ⟨freed, frees, -⟩ := released block size taken
  exact kept freed (mem_frees.mp (frees ▸ List.mem_singleton_self freed))

def Later (log later : HeapLog) : Prop :=
  ∀ block freed, .kfree block freed ∈ later → log.length ≤ block ∧
    block < log.length + later.length

theorem OwnFrees.append (own : OwnFrees log) (others : Later log later) :
    OwnFrees (log ++ later) := by
  intro block freed member
  rw [List.length_append]
  rcases List.mem_append.mp member with earlier | new
  · have bound := own block freed earlier
    omega
  · exact (others block freed new).2

theorem OwnFrees.leaks (own : OwnFrees log) (front back : HeapLog)
    (kept : ∀ freed, .kfree (log ++ front).length freed ∉
      front ++ .kmalloc .temporary size :: back) :
    Leaked (log ++ (front ++ .kmalloc .temporary size :: back)) := by
  refine ⟨(log ++ front).length, size, ?_, fun freed member => ?_⟩
  · rw [← List.append_assoc, List.getElem?_append_right (le_refl _), Nat.sub_self]
    rfl
  · rcases List.mem_append.mp member with earlier | new
    · have bound := own _ freed earlier
      rw [List.length_append] at bound
      omega
    · exact kept freed new

end Log

section Events

variable {fs : Tmpfs}

def Takes (events : HeapLog) : Prop := ∀ e ∈ events, ∃ size, e = .kmalloc .temporary size

theorem Takes.no_free {events : HeapLog} (takes : Takes events) (block freed : Nat) :
    .kfree block freed ∉ events := by
  intro member
  obtain ⟨size, same⟩ := takes _ member
  cases same

theorem walkLog_takes
    {followLog : Nat → List UInt8 → HeapLog → Option (Option Nat × HeapLog)}
    (takes : ∀ cur target log r, followLog cur target log = some r →
      ∃ events, r.2 = log ++ events ∧ Takes events)
    {getparent : Bool} {work : List UInt8} {pathlen fuel i cur : Nat} {last : List UInt8}
    {log : HeapLog} {r : Found × HeapLog}
    (ran : walkLog fs followLog getparent work pathlen fuel i cur last log = some r) :
    ∃ events, r.2 = log ++ events ∧ Takes events := by
  have nothing : ∀ found : Found, some (found, log) = some r →
      ∃ events, r.2 = log ++ events ∧ Takes events := by
    intro found same
    obtain rfl := Option.some.inj same
    exact ⟨[], (List.append_nil log).symm, fun e member => absurd member List.not_mem_nil⟩
  induction fuel generalizing i cur with
  | zero => exact nothing _ ran
  | succ fuel ih =>
      rw [walkLog] at ran
      split at ran
      · split at ran
        · exact ih ran
        · dsimp only at ran
          split at ran
          · exact nothing _ ran
          · split at ran
            · split at ran
              · exact ih ran
              · obtain ⟨followed, ran', rfl⟩ := Option.map_eq_some_iff.mp ran
                exact takes _ _ log followed ran'
              · exact nothing _ ran
            · exact nothing _ ran
      · exact nothing _ ran

theorem vnodePathLookupLog_takes {scratch : Scratch} {depth cur : Nat} {path : List UInt8}
    {getparent : Bool} {last : List UInt8} {log : HeapLog} {r : Found × HeapLog}
    (ran : vnodePathLookupLog fs scratch depth cur path getparent last log = some r) :
    ∃ events, r.2 = log ++ .kmalloc .temporary (path.length + 1) :: events ∧ Takes events := by
  induction depth generalizing cur path getparent last log r with
  | zero => cases ran
  | succ depth ih =>
      rw [vnodePathLookupLog] at ran
      obtain ⟨events, same, takes⟩ := walkLog_takes (fun cur target log r followed => by
        obtain ⟨found, ran', rfl⟩ := Option.map_eq_some_iff.mp followed
        obtain ⟨events, same, takes⟩ := ih ran'
        refine ⟨_, same, ?_⟩
        intro e member
        rcases List.mem_cons.mp member with rfl | later
        · exact ⟨_, rfl⟩
        · exact takes e later) ran
      exact ⟨events, by rw [same, List.append_assoc]; rfl, takes⟩

def Nodes (events : HeapLog) : Prop := ∀ e ∈ events, ∃ size, e = .kmalloc .node size

theorem Nodes.nil : Nodes [] := fun _ member => absurd member List.not_mem_nil

theorem Nodes.no_free {events : HeapLog} (nodes : Nodes events) (block freed : Nat) :
    .kfree block freed ∉ events := by
  intro member
  obtain ⟨size, same⟩ := nodes _ member
  cases same

theorem vnodeMkdirLog_nodes (fs : Tmpfs) (v : Nat) (name : List UInt8) (log : HeapLog) :
    ∃ nodes, (vnodeMkdirLog fs v name log).2 = log ++ nodes ∧ Nodes nodes := by
  rw [vnodeMkdirLog]
  split
  · exact ⟨_, rfl, by simp [Nodes]⟩
  · exact ⟨[], (List.append_nil log).symm, Nodes.nil⟩

theorem vnodeCreateLog_nodes (fs : Tmpfs) (v : Nat) (name : List UInt8) (log : HeapLog) :
    ∃ nodes, (vnodeCreateLog fs v name log).2 = log ++ nodes ∧ Nodes nodes := by
  rw [vnodeCreateLog]
  split
  · exact ⟨_, rfl, by simp [Nodes]⟩
  · exact ⟨[], (List.append_nil log).symm, Nodes.nil⟩

/-- How `vfs_create` gives `component` back. -/
def releaseComponent (component : Nat) (path : List UInt8) (type : Nat) (found : Found) :
    HeapLog :=
  if found.vnode = none ∨ type = 0 then [.kfree component (path.length + 1)]
  else if type = 1 then [.kfree component (path.length - 1)]
  else []

theorem vfsCreateLog_cases {scratch : Scratch} {depth indir : Nat} {path : List UInt8}
    {type : Nat} {log : HeapLog} {r : (Int × Tmpfs × Option Nat) × HeapLog} (some_ : path ≠ [])
    (ran : vfsCreateLog fs scratch depth indir path type log = some r) :
    ∃ found events nodes,
      vnodePathLookup fs scratch depth indir path true (cstring scratch.component) = some found ∧
      r.2 = log ++ (.kmalloc .temporary (path.length + 1) ::
        .kmalloc .temporary (path.length + 1) ::
        (events ++ nodes ++ releaseComponent log.length path type found)) ∧
      Takes events ∧ Nodes nodes := by
  rw [vfsCreateLog, if_neg some_] at ran
  obtain ⟨⟨found, log₁⟩, looked, rest⟩ := Option.bind_eq_some_iff.mp ran
  obtain ⟨events, same, takes⟩ := vnodePathLookupLog_takes looked
  have erased := vnodePathLookupLog_erase fs scratch depth indir path true
    (cstring scratch.component) (log ++ [.kmalloc .temporary (path.length + 1)])
  rw [looked, Option.map_some] at erased
  dsimp only at same rest
  subst same
  refine ⟨found, events, ?_⟩
  cases parent : found.vnode with
  | none =>
      rw [parent] at rest
      obtain rfl := Option.some.inj rest
      refine ⟨[], erased.symm, ?_, takes, Nodes.nil⟩
      rw [releaseComponent, if_pos (Or.inl parent)]
      simp
  | some ourPar =>
      rw [parent] at rest
      dsimp only at rest
      match type with
      | 0 =>
          obtain rfl := Option.some.inj rest
          obtain ⟨nodes, made, own⟩ := vnodeMkdirLog_nodes fs ourPar found.componentlast
            (log ++ [.kmalloc .temporary (path.length + 1)] ++
              .kmalloc .temporary (path.length + 1) :: events)
          refine ⟨nodes, erased.symm, ?_, takes, own⟩
          rw [releaseComponent, if_pos (Or.inr rfl)]
          dsimp only
          rw [made]
          simp
      | 1 =>
          obtain rfl := Option.some.inj rest
          obtain ⟨nodes, made, own⟩ := vnodeCreateLog_nodes fs ourPar found.componentlast
            (log ++ [.kmalloc .temporary (path.length + 1)] ++
              .kmalloc .temporary (path.length + 1) :: events)
          refine ⟨nodes, erased.symm, ?_, takes, own⟩
          rw [releaseComponent, if_neg (by simp [parent]), if_pos rfl]
          dsimp only
          rw [made]
          simp
      | n + 2 =>
          obtain rfl := Option.some.inj rest
          refine ⟨[], erased.symm, ?_, takes, Nodes.nil⟩
          rw [releaseComponent, if_neg (by simp [parent]), if_neg (by omega)]
          simp

theorem mem_releaseComponent {component block freed type : Nat} {path : List UInt8} {found : Found}
    (member : .kfree block freed ∈ releaseComponent component path type found) :
    block = component := by
  unfold releaseComponent at member
  split at member
  · cases List.mem_singleton.mp member
    rfl
  · split at member
    · cases List.mem_singleton.mp member
      rfl
    · cases member

end Events

section Calls

variable {fs : Tmpfs} {log : HeapLog} {r : Tmpfs × HeapLog}

theorem lookup_leaks {scratch : Scratch} {depth cur : Nat} {path last : List UInt8}
    {getparent : Bool} (own : OwnFrees log)
    (ran : (PathCall.lookup scratch depth cur path getparent last).run fs log = some r) :
    ∃ later, r.2 = log ++ later ∧ Later log later ∧ Leaked r.2 := by
  obtain ⟨found, looked, rfl⟩ := Option.map_eq_some_iff.mp ran
  obtain ⟨events, same, takes⟩ := vnodePathLookupLog_takes looked
  have none : ∀ block freed, .kfree block freed ∉
      (.kmalloc .temporary (path.length + 1) :: events : HeapLog) := by
    intro block freed member
    rcases List.mem_cons.mp member with this | inEvents
    · cases this
    · exact takes.no_free block freed inEvents
  refine ⟨_, same, fun block freed member => absurd member (none block freed), ?_⟩
  dsimp only
  rw [same]
  exact own.leaks [] events fun freed => none _ freed

theorem create_leaks {scratch : Scratch} {depth indir type : Nat} {path : List UInt8}
    (own : OwnFrees log) (nonempty : path ≠ [])
    (ran : (PathCall.create scratch depth indir path type).run fs log = some r) :
    ∃ later, r.2 = log ++ later ∧ Later log later ∧ Leaked r.2 := by
  obtain ⟨made, created, rfl⟩ := Option.map_eq_some_iff.mp ran
  obtain ⟨found, events, nodes, -, same, takes, tree⟩ := vfsCreateLog_cases nonempty created
  have only : ∀ block freed, .kfree block freed ∈
      (.kmalloc .temporary (path.length + 1) :: .kmalloc .temporary (path.length + 1) ::
        (events ++ nodes ++ releaseComponent log.length path type found) : HeapLog) →
      block = log.length := by
    intro block freed member
    simp only [List.mem_cons, List.mem_append, reduceCtorEq, false_or] at member
    rcases member with (inEvents | inNodes) | last
    · exact absurd inEvents (takes.no_free block freed)
    · exact absurd inNodes (tree.no_free block freed)
    · exact mem_releaseComponent last
  refine ⟨_, same, ?_, ?_⟩
  · intro block freed member
    obtain rfl := only block freed member
    rw [List.length_cons]
    omega
  · dsimp only
    rw [same]
    apply own.leaks [.kmalloc .temporary (path.length + 1)]
    intro freed member
    have block := only _ freed member
    rw [List.length_append, List.length_singleton] at block
    omega

theorem create_nothing {scratch : Scratch} {depth indir type : Nat} :
    (PathCall.create scratch depth indir [] type).run fs log = some (fs, log) := by
  rw [PathCall.run, vfsCreateLog, if_pos rfl]
  rfl

theorem PathCall.run_spec {call : PathCall} (own : OwnFrees log)
    (ran : call.run fs log = some r) :
    (call.TakesNothing ∧ r = (fs, log)) ∨
      (¬ call.TakesNothing ∧ ∃ later, r.2 = log ++ later ∧ Later log later ∧ Leaked r.2) := by
  cases call with
  | lookup scratch depth cur path getparent last =>
      exact Or.inr ⟨fun nothing => nothing, lookup_leaks own ran⟩
  | create scratch depth indir path type =>
      by_cases nothing : path = []
      · subst nothing
        rw [create_nothing] at ran
        exact Or.inl ⟨rfl, (Option.some.inj ran).symm⟩
      · exact Or.inr ⟨nothing, create_leaks own nothing ran⟩

theorem runCalls_leaked {calls : List PathCall} (own : OwnFrees log) (leaked : Leaked log)
    (ran : runCalls calls fs log = some r) : Leaked r.2 := by
  induction calls generalizing fs log with
  | nil =>
      obtain rfl := Option.some.inj ran
      exact leaked
  | cons call rest ih =>
      obtain ⟨⟨fs', log'⟩, first, later⟩ := Option.bind_eq_some_iff.mp ran
      rcases call.run_spec own first with ⟨-, same⟩ | ⟨-, events, rfl, others, leaked'⟩
      · obtain ⟨rfl, rfl⟩ := Prod.mk.inj same
        exact ih own leaked later
      · exact ih (own.append others) leaked' later

theorem runCalls_leaks {calls : List PathCall} (own : OwnFrees log)
    (ran : runCalls calls fs log = some r) (takes : ∃ call ∈ calls, ¬ call.TakesNothing) :
    Leaked r.2 := by
  induction calls generalizing fs log with
  | nil =>
      obtain ⟨call, member, -⟩ := takes
      cases member
  | cons call rest ih =>
      obtain ⟨⟨fs', log'⟩, first, later⟩ := Option.bind_eq_some_iff.mp ran
      rcases call.run_spec own first with ⟨nothing, same⟩ | ⟨-, events, rfl, others, leaked⟩
      · obtain ⟨rfl, rfl⟩ := Prod.mk.inj same
        apply ih own later
        obtain ⟨other, member, takes⟩ := takes
        rcases List.mem_cons.mp member with rfl | inRest
        · exact absurd nothing takes
        · exact ⟨other, inRest, takes⟩
      · exact runCalls_leaked (own.append others) leaked later

theorem runCalls_nothing {calls : List PathCall} (none : ∀ call ∈ calls, call.TakesNothing)
    (ran : runCalls calls fs log = some r) : r = (fs, log) := by
  induction calls with
  | nil => exact (Option.some.inj ran).symm
  | cons call rest ih =>
      have first := none call List.mem_cons_self
      cases call with
      | lookup => exact absurd first id
      | create scratch depth indir path type =>
          obtain rfl : path = [] := first
          rw [runCalls, create_nothing, Option.bind_some] at ran
          exact ih (fun other member => none other (List.mem_cons_of_mem _ member)) ran

/-- The size that `component` is given back with puts it on the right side of the limit but for
paths of 1023 and 1024 bytes to a file, and for types that are not supported it stays. -/
theorem component_released_iff {scratch : Scratch} {depth indir type : Nat} {path : List UInt8}
    {made : (Int × Tmpfs × Option Nat) × HeapLog} (own : OwnFrees log) (nonempty : path ≠ [])
    (ran : vfsCreateLog fs scratch depth indir path type log = some made) :
    (∃ freed, made.2.frees log.length = [freed] ∧ (freed < 1024 ↔ path.length + 1 < 1024)) ↔
      (vnodePathLookup fs scratch depth indir path true (cstring scratch.component)).map
        Found.vnode = some none ∨ type = 0 ∨
      type = 1 ∧ path.length ≠ 1023 ∧ path.length ≠ 1024 := by
  obtain ⟨found, events, nodes, looked, same, takes, tree⟩ := vfsCreateLog_cases nonempty ran
  have silent : ∀ quiet : HeapLog, (∀ freed, .kfree log.length freed ∉ quiet) →
      quiet.frees log.length = [] := by
    intro quiet none
    apply List.eq_nil_iff_forall_not_mem.mpr
    intro freed member
    exact none freed (mem_frees.mp member)
  have before := silent log fun freed member =>
    absurd (own _ freed member) (Nat.lt_irrefl _)
  have first := silent events fun freed => takes.no_free _ freed
  have second := silent nodes fun freed => tree.no_free _ freed
  have frees : made.2.frees log.length =
      (releaseComponent log.length path type found).frees log.length := by
    rw [same]
    unfold HeapLog.frees at *
    simp only [List.filterMap_append, List.filterMap_cons, before, first, second, List.nil_append]
  have once (size : Nat) : HeapLog.frees [.kfree log.length size] log.length = [size] := by
    simp [HeapLog.frees]
  have long := List.length_pos_of_ne_nil nonempty
  rw [frees, looked, Option.map_some, Option.some.injEq, releaseComponent]
  by_cases plain : found.vnode = none ∨ type = 0
  · rw [if_pos plain]
    constructor
    · intro _
      exact plain.imp_right Or.inl
    · intro _
      exact ⟨_, once _, Iff.rfl⟩
  · obtain ⟨parent, notDir⟩ := not_or.mp plain
    rw [if_neg plain]
    by_cases file : type = 1
    · rw [if_pos file, once]
      constructor
      · rintro ⟨freed, same, sides⟩
        obtain rfl := (List.cons.inj same).1
        exact Or.inr (Or.inr ⟨file, by omega, by omega⟩)
      · rintro (none | dir | ⟨-, low, high⟩)
        · exact absurd none parent
        · exact absurd dir notDir
        · exact ⟨_, rfl, by omega⟩
    · rw [if_neg file]
      constructor
      · rintro ⟨freed, same, -⟩
        cases same
      · rintro (none | dir | ⟨same, -⟩)
        · exact absurd none parent
        · exact absurd dir notDir
        · exact absurd same file

end Calls

/-- The buffers of a run of path operations are all given back just when none was ever taken:
every call created the empty path. -/
theorem temporaries_released_iff (fs : Tmpfs) (calls : List PathCall) (r : Tmpfs × HeapLog)
    (ran : runCalls calls fs [] = some r) :
    Released r.2 ∧ OnlyNodesLeft r.2 ↔ ∀ call ∈ calls, call.TakesNothing := by
  have own : OwnFrees [] := fun block freed member => absurd member List.not_mem_nil
  constructor
  · rintro ⟨released, -⟩ call member
    by_contra takes
    exact released.not_leaked (runCalls_leaks own ran ⟨call, member, takes⟩)
  · intro none
    rw [runCalls_nothing none ran]
    refine ⟨?_, ?_⟩
    · intro block size taken
      cases taken
    · intro block purpose size taken
      cases taken

/-- A lookup of `/` in an empty file system. -/
def lookupRoot : PathCall := .lookup ⟨[], []⟩ 1 0 [slash] false []

theorem temporaries_released_iff_two : ∃ log,
    runCalls [.create ⟨[], []⟩ 1 0 [] 0, lookupRoot] ⟨[newVnode .dir]⟩ [] =
      some (⟨[newVnode .dir]⟩, log) ∧ ¬ (Released log ∧ OnlyNodesLeft log) := by
  have ran : runCalls [.create ⟨[], []⟩ 1 0 [] 0, lookupRoot] ⟨[newVnode .dir]⟩ [] =
      some (⟨[newVnode .dir]⟩, [.kmalloc .temporary 2]) := rfl
  refine ⟨_, ran, ?_⟩
  rw [temporaries_released_iff _ _ _ ran]
  intro none
  exact none lookupRoot (by simp)

/-- One lookup leaves its buffer behind. -/
theorem lookup_keeps_buffer : ∃ log,
    runCalls [lookupRoot] ⟨[newVnode .dir]⟩ [] = some (⟨[newVnode .dir]⟩, log) ∧
      ¬ Released log := by
  refine ⟨[.kmalloc .temporary 2], rfl, fun released => released.not_leaked ?_⟩
  exact ⟨0, 2, rfl, by simp⟩

end Nyaux.Fs
