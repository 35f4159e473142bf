/-
This file shows that a path is followed one component at a time, wherever its slashes stand.
-/

import Subversion.Fs.RoleRuns

namespace Subversion.Fs

open Delta Svndiff Framing Transactions

section Components

/-- The names between the slashes. -/
def components (path : Bytes) : List Bytes := (path.splitOn 47).filter fun name => name ≠ []

def EndsInSlash (path : Bytes) : Prop := path.getLast? = some 47

instance (path : Bytes) : Decidable (EndsInSlash path) :=
  inferInstanceAs (Decidable (path.getLast? = some 47))

variable {name : Bytes}

theorem components_append (first second : Bytes) :
    components (first ++ 47 :: second) = components first ++ components second := by
  rw [components, List.splitOn_append_cons_self, List.filter_append]
  rfl

theorem components_slash (rest : Bytes) : components (47 :: rest) = components rest :=
  components_append [] rest

theorem components_slashes (rest : Bytes) :
    components (rest.dropWhile (· = 47)) = components rest := by
  induction rest with
  | nil => rfl
  | cons c rest ih =>
      by_cases slash : c = 47
      · subst slash
        rw [List.dropWhile_cons_of_pos (by simp), ih, components_slash]
      · rw [List.dropWhile_cons_of_neg (by simpa using slash)]

theorem components_nil : components [] = [] := rfl

theorem components_name (solid : 47 ∉ name) (nonempty : name ≠ []) : components name = [name] := by
  rw [components, List.splitOn_eq_singleton solid,
    List.filter_cons_of_pos (by simpa using nonempty), List.filter_nil]

/-- What the first component is followed by. -/
inductive NextEntry : Bytes → Bytes → Option Bytes → Prop where
  | last {name : Bytes} (solid : 47 ∉ name) : NextEntry name name none
  | more {name rest : Bytes} (solid : 47 ∉ name) :
      NextEntry (name ++ 47 :: rest) name (some (rest.dropWhile (· = 47)))

theorem nextEntryName_spec (path : Bytes) :
    NextEntry path (nextEntryName path).1 (nextEntryName path).2 := by
  have solid : 47 ∉ path.takeWhile (· ≠ 47) := by
    intro member
    exact absurd (List.mem_takeWhile_imp member) (by decide)
  have whole := List.takeWhile_append_dropWhile (p := (· ≠ (47 : UInt8))) (l := path)
  rw [nextEntryName]
  cases behind : path.dropWhile (· ≠ 47) with
  | nil =>
      rw [behind, List.append_nil] at whole
      rw [whole] at solid
      exact NextEntry.last solid
  | cons c rest =>
      have slash : c = 47 := by
        have first := List.head?_dropWhile_not (· ≠ (47 : UInt8)) path
        rw [behind] at first
        simpa using first
      subst slash
      rw [behind] at whole
      have next : NextEntry (path.takeWhile (· ≠ 47) ++ 47 :: rest) _ _ := NextEntry.more solid
      rw [whole] at next
      simpa using next

end Components

section Codes

/-- No error says that a file is missing. -/
def NeverNotFound {A : Type} (result : Except SvnError A) : Prop :=
  ∀ error, result = .error error → error.code ≠ .fsNotFound

variable {A : Type} {error : SvnError}

theorem neverNotFound_ok (value : A) : NeverNotFound (.ok value : Except SvnError A) :=
  fun _ failed => nomatch failed

theorem neverNotFound_error (other : error.code ≠ .fsNotFound) :
    NeverNotFound (.error error : Except SvnError A) := by
  rintro _ ⟨⟩
  exact other

theorem neverNotFound_code {code : ErrorCode} {message : String} (other : code ≠ .fsNotFound) :
    NeverNotFound (.error ⟨code, message⟩ : Except SvnError A) := neverNotFound_error other

theorem neverNotFound_readRep (store : Store) (key : Nat) : NeverNotFound (readRep store key) := by
  rw [readRep]
  split
  · exact neverNotFound_ok _
  · exact neverNotFound_code (by decide)

theorem neverNotFound_locateKey (strings : StringsTable) (key : StrKey) :
    NeverNotFound (locateKey strings key) := by
  rw [locateKey]
  split
  · exact neverNotFound_ok _
  · exact neverNotFound_code (by decide)

theorem neverNotFound_stringRead (strings : StringsTable) (key : StrKey) (offset len : Nat) :
    NeverNotFound (stringRead strings key offset len) := by
  have located := neverNotFound_locateKey strings key
  rw [stringRead]
  split
  · next error failed => exact neverNotFound_error (located error failed)
  · exact neverNotFound_ok _

theorem neverNotFound_stringSize (strings : StringsTable) (key : StrKey) :
    NeverNotFound (stringSize strings key) := by
  have located := neverNotFound_locateKey strings key
  rw [stringSize]
  split
  · next error failed => exact neverNotFound_error (located error failed)
  · exact neverNotFound_ok _

theorem parseWindow_error (state : DecodeState) (buffer : Bytes) (error : SvnError)
    (stopped : parseWindow state buffer = .stop error) : error.code ≠ .fsNotFound := by
  rw [parseWindow] at stopped
  split at stopped
  · cases stopped
    decide
  · split at stopped
    · cases stopped
    · split at stopped
      · cases stopped
        decide
      · split at stopped
        · cases stopped
          decide
        · split at stopped
          · cases stopped
          · split at stopped
            · cases stopped
              decide
            · rw [buildWindow] at stopped
              split at stopped
              · cases stopped
                decide
              · split at stopped
                · cases stopped
                  decide
                · split at stopped
                  · cases stopped
                    decide
                  · cases stopped

section Reading

variable {reader : Reader} (reads : ∀ key offset len, NeverNotFound (reader key offset len))

include reads

theorem neverNotFound_playOp (base : Nat) (window : TxdeltaWindow) (play : Play) (op : TxdeltaOp) :
    NeverNotFound (playOp reader base window play op) := by
  rw [playOp]
  split
  · next error failed =>
      rw [sourceView] at failed
      split at failed
      · split at failed
        · cases failed
        · next reason read =>
            cases failed
            exact neverNotFound_error (reads _ _ _ _ read)
      · cases failed
  · split
    · exact neverNotFound_code (by decide)
    · split
      · exact neverNotFound_ok _
      · exact neverNotFound_code (by decide)

theorem neverNotFound_playOps (base : Nat) (window : TxdeltaWindow) (discard want : Nat)
    (ops : List TxdeltaOp) :
    ∀ play copyAmt, NeverNotFound (playOps reader base window discard want ops play copyAmt) := by
  induction ops with
  | nil => exact fun _ _ => neverNotFound_ok _
  | cons op ops ih =>
      intro play copyAmt
      have played := neverNotFound_playOp reads base window play op
      rw [playOps]
      split
      · next error failed => exact neverNotFound_error (played error failed)
      · split
        · split
          · exact neverNotFound_ok _
          · exact ih _ _
        · exact ih _ _

theorem windowHandler_error (baton : WindowBaton) (window : Option TxdeltaWindow)
    (failed : (windowHandler reader baton window).2 = some error) : error.code ≠ .fsNotFound := by
  cases window with
  | none => cases failed
  | some window =>
      rw [windowHandler] at failed
      split at failed
      · cases failed
      · simp only at failed
        split at failed
        · next reason refused =>
            cases failed
            exact neverNotFound_playOps reads _ _ _ _ _ _ _ _ refused
        · cases failed

theorem neverNotFound_writeHandler (baton : DecodeBaton WindowBaton) (chunk : Bytes)
    (failed : (writeHandler (windowHandler reader) baton chunk).2 = some error) :
    error.code ≠ .fsNotFound := by
  rw [writeHandler] at failed
  split at failed
  · cases failed
    decide
  · have refused := drain_error (windowConsumer (windowHandler reader)) parseWindow_error
      fun baton window error => windowHandler_error reads baton (some window)
    exact refused _ _ _ failed

theorem neverNotFound_pumpString (strings : StringsTable) (strKey : StrKey) (fuel : Nat) :
    ∀ off parser, NeverNotFound (pumpString strings (windowHandler reader) strKey fuel off parser) := by
  induction fuel with
  | zero => exact fun _ _ => neverNotFound_ok _
  | succ fuel ih =>
      intro off parser
      rw [pumpString]
      split
      · next error failed =>
          exact neverNotFound_error (neverNotFound_stringRead strings strKey off 4096 error failed)
      · next chunk _ =>
          split
          · next _ error failed =>
              exact neverNotFound_error
                (neverNotFound_writeHandler reads parser chunk (by rw [failed]))
          · split
            · exact neverNotFound_ok _
            · exact ih _ _

theorem neverNotFound_readWindows (strings : StringsTable) (offset len : Nat)
    (windows : List DeltaWindow) :
    ∀ parser, NeverNotFound (readWindows strings reader offset len windows parser) := by
  induction windows with
  | nil => exact fun _ => neverNotFound_ok _
  | cons window windows ih =>
      intro parser
      rw [readWindows]
      split
      · split
        · exact ih _
        · split
          · exact neverNotFound_ok _
          · split
            · next error failed =>
                exact neverNotFound_error (neverNotFound_pumpString reads _ _ _ _ _ error failed)
            · split
              · exact neverNotFound_ok _
              · exact ih _
      · exact neverNotFound_code (by decide)

theorem neverNotFound_readDelta (strings : StringsTable) (windows : List DeltaWindow)
    (offset len : Nat) : NeverNotFound (readDelta strings reader windows offset len) := by
  rw [readDelta]
  split
  · exact neverNotFound_code (by decide)
  · split
    · next _ error failed =>
        exact neverNotFound_error (neverNotFound_writeHandler reads _ _ (by rw [failed]))
    · split
      · next error failed =>
          exact neverNotFound_error (neverNotFound_readWindows reads _ _ _ _ _ error failed)
      · split
        · next _ error failed =>
            rw [closeHandler] at failed
            split at failed
            · cases failed
              exact neverNotFound_code (by decide)
            · exact neverNotFound_error (windowHandler_error reads _ none (by rw [failed]))
        · exact neverNotFound_ok _

end Reading

theorem neverNotFound_repReadRange (store : Store) (depth : Nat) :
    ∀ key offset len, NeverNotFound (repReadRange store depth key offset len) := by
  induction depth with
  | zero => exact fun _ _ _ => neverNotFound_code (by decide)
  | succ depth ih =>
      intro key offset len
      have read := neverNotFound_readRep store key
      rw [repReadRange, readLevel]
      split
      · next error failed => exact neverNotFound_error (read error failed)
      · split
        · exact neverNotFound_stringRead _ _ _ _
        · exact neverNotFound_readDelta ih _ _ _ _

theorem neverNotFound_repContentsSize (store : Store) (key : Nat) :
    NeverNotFound (repContentsSize store key) := by
  have read := neverNotFound_readRep store key
  rw [repContentsSize]
  split
  · next error failed => exact neverNotFound_error (read error failed)
  · split
    · exact neverNotFound_stringSize _ _
    · split
      · exact neverNotFound_code (by decide)
      · split
        · split
          · exact neverNotFound_ok _
          · exact neverNotFound_code (by decide)
        · exact neverNotFound_code (by decide)

theorem neverNotFound_repContents (store : Store) (depth key : Nat) :
    NeverNotFound (repContents store depth key) := by
  rw [repContents]
  split
  · next error failed =>
      exact neverNotFound_error (neverNotFound_repContentsSize store key error failed)
  · split
    · next error failed =>
        exact neverNotFound_error (neverNotFound_repReadRange store depth key _ _ error failed)
    · split
      · exact neverNotFound_code (by decide)
      · exact neverNotFound_ok _

theorem neverNotFound_parseEntries (raw : Bytes) : NeverNotFound (parseEntries raw) := by
  have entries : ∀ children : List Skel, NeverNotFound (children.mapM skelEntry) := by
    intro children
    induction children with
    | nil => exact neverNotFound_ok _
    | cons child children ih =>
        intro error failed
        rw [List.mapM_cons] at failed
        cases head : skelEntry child with
        | error reason =>
            rw [head] at failed
            cases failed
            unfold skelEntry at head
            split at head
            · cases head
            · cases head
              decide
            · cases head
              decide
        | ok entry =>
            rw [head] at failed
            cases rest : children.mapM skelEntry with
            | error reason =>
                simp only [rest] at failed
                cases failed
                exact ih _ rest
            | ok later =>
                simp only [rest] at failed
                cases failed
  rw [parseEntries]
  split
  · exact entries _
  · exact neverNotFound_code (by decide)

theorem neverNotFound_bind {B : Type} {first : Trail A} {next : A → Trail B} {fs : Filesystem}
    (one : NeverNotFound (first fs))
    (two : ∀ value after, first fs = .ok (value, after) → NeverNotFound (next value after)) :
    NeverNotFound ((first >>= next) fs) := by
  cases ran : first fs with
  | error error =>
      rw [bind_error ran]
      exact neverNotFound_error (one error ran)
  | ok found =>
      rw [bind_run ran]
      exact two found.1 found.2 ran

theorem neverNotFound_getNodeRevision (id : NodeId) (fs : Filesystem) :
    NeverNotFound (Trail.getNodeRevision id fs) := by
  rw [Trail.getNodeRevision, withNodes, Fs.getNodeRevision]
  cases fs.nodes.entries.lookup id with
  | none => exact neverNotFound_code (by decide)
  | some node => exact neverNotFound_ok _

theorem neverNotFound_ensure {condition : Prop} [Decidable condition] (fs : Filesystem)
    (other : error.code ≠ .fsNotFound) : NeverNotFound (ensure condition error fs) := by
  rw [ensure]
  split
  · exact neverNotFound_ok _
  · exact neverNotFound_error other

theorem neverNotFound_readStore {read : Store → Except SvnError A} {fs : Filesystem}
    (reads : NeverNotFound (read fs.store)) : NeverNotFound (readStore read fs) := by
  rw [readStore, withStore]
  cases ran : read fs.store with
  | error error => exact neverNotFound_error (reads error ran)
  | ok found => exact neverNotFound_ok _

theorem neverNotFound_dirEntriesSkel (depth : Nat) (id : NodeId) (fs : Filesystem) :
    NeverNotFound (Trail.dirEntriesSkel depth id fs) := by
  apply neverNotFound_bind (neverNotFound_getNodeRevision id fs)
  intro node fs _
  apply neverNotFound_bind (neverNotFound_ensure fs (by decide))
  intro _ fs _
  rw [Trail.getDirEntries]
  cases node.kind with
  | file => exact neverNotFound_code (show ErrorCode.fsNotDirectory ≠ .fsNotFound by decide)
  | dir =>
    cases node.dataKey with
    | none => exact neverNotFound_ok _
    | some key =>
        apply neverNotFound_readStore
        split
        · next error failed =>
            exact neverNotFound_error (neverNotFound_repContents fs.store depth key error failed)
        · exact neverNotFound_parseEntries _

/-- What is done with an entry that is there. -/
def Trail.openEntry (name text : Bytes) : Trail NodeId := do
  ensure (isSinglePathComponent name = true) ⟨.fsNotSinglePathComponent,
    "Attempted to open node with an illegal name `" ++ bytesText name ++ "'"⟩
  let id ← readStore fun _ => entryId text
  let _ ← Trail.getNodeRevision id
  pure id

theorem neverNotFound_openEntry (name text : Bytes) (fs : Filesystem) :
    NeverNotFound (Trail.openEntry name text fs) := by
  apply neverNotFound_bind (neverNotFound_ensure fs (show ErrorCode.fsNotSinglePathComponent ≠ .fsNotFound by decide))
  intro _ fs _
  apply neverNotFound_bind
  · apply neverNotFound_readStore
    rw [entryId]
    split
    · exact neverNotFound_ok _
    · exact neverNotFound_code (by decide)
  · intro id fs _
    apply neverNotFound_bind (neverNotFound_getNodeRevision id fs)
    exact fun _ _ _ => neverNotFound_ok _

end Codes

section Walk

/-- A result, or the code of an error. The texts of errors show the path as it was given. -/
abbrev Outcome (A : Type) := Except ErrorCode A

def outcome {A : Type} (result : Except SvnError A) : Outcome A := result.mapError (·.code)

def IsDirectory (fs : Filesystem) (id : NodeId) : Prop := (fs.node id).map (·.kind) = some .dir

instance (fs : Filesystem) (id : NodeId) : Decidable (IsDirectory fs id) :=
  inferInstanceAs (Decidable (_ = _))

/-- The node under a name of a directory, if the directory has the name. -/
def entryNode (fs : Filesystem) (depth : Nat) (here : NodeId) (name : Bytes) :
    Outcome (Option NodeId) :=
  match Trail.dirEntriesSkel depth here fs with
  | .error error => .error error.code
  | .ok (entries, _) =>
      if findDirEntry entries name = none then .ok none
      else (outcome (Trail.openChild depth here name fs)).map fun found => some found.1

/-- Each name is looked up in the directory that the names before it lead to. -/
def walk (fs : Filesystem) (depth : Nat) (lastOptional : Bool) :
    NodeId → ParentPath → List Bytes → Outcome ParentPath
  | _, parents, [] => .ok parents
  | here, parents, name :: names =>
      if IsDirectory fs here then
        match entryNode fs depth here name with
        | .error code => .error code
        | .ok none =>
            if lastOptional = true ∧ names = [] then .ok (.child none name parents)
            else .error .fsNotFound
        | .ok (some child) => walk fs depth lastOptional child (.child (some child) name parents) names
      else .error .fsNotDirectory

/-- What is there must be a directory. -/
def requireDirectory (fs : Filesystem) (parents : ParentPath) : Outcome ParentPath :=
  match parents.node with
  | none => .ok parents
  | some id => if IsDirectory fs id then .ok parents else .error .fsNotDirectory

/-- A slash at the end asks for a directory. -/
def walkPath (fs : Filesystem) (depth : Nat) (lastOptional : Bool) (here : NodeId)
    (parents : ParentPath) (path : Bytes) : Outcome ParentPath := do
  let found ← walk fs depth lastOptional here parents (components path)
  if EndsInSlash path then requireDirectory fs found else .ok found

variable {fs : Filesystem} {depth : Nat} {here : NodeId} {name : Bytes}

theorem openChild_run (fs : Filesystem) (depth : Nat) (here : NodeId) (name : Bytes) :
    Trail.openChild depth here name fs =
      match Trail.dirEntriesSkel depth here fs with
      | .error error => .error error
      | .ok (entries, fs) =>
          match findDirEntry entries name with
          | none => .error ⟨.fsNotFound, "Attempted to open non-existant child node \"" ++
              bytesText name ++ "\""⟩
          | some text => Trail.openEntry name text fs := by
  cases listed : Trail.dirEntriesSkel depth here fs with
  | error error => exact bind_error listed
  | ok found =>
      rw [Trail.openChild, bind_run listed]
      simp only
      cases findDirEntry found.1 name <;> rfl

theorem dirEntriesSkel_file (depth : Nat) {node : NodeRev} (found : fs.node here = some node)
    (file : ¬ IsDirectory fs here) :
    ∃ error, Trail.dirEntriesSkel depth here fs = .error error ∧ error.code = .fsNotDirectory := by
  have other : node.kind ≠ .dir := by
    rw [IsDirectory, found] at file
    simpa using file
  refine ⟨⟨.fsNotDirectory, "Attempted to get entry from non-directory node."⟩, ?_, rfl⟩
  rw [Trail.dirEntriesSkel, bind_run (Trail.getNodeRevision_ok.mpr ⟨found, rfl⟩)]
  apply bind_error
  rw [ensure, if_neg other]
  rfl

theorem openEntry_ok {text : Bytes} {child : NodeId} {next : Filesystem}
    (opened : Trail.openEntry name text fs = .ok (child, next)) :
    next = fs ∧ ∃ node, fs.node child = some node := by
  simp only [Trail.openEntry, bind_ok, ensure_ok, readStore_ok, Trail.getNodeRevision_ok,
    pure_ok] at opened
  obtain ⟨_, _, ⟨_, rfl⟩, id, _, ⟨_, rfl⟩, node, _, ⟨found, rfl⟩, rfl, rfl⟩ := opened
  exact ⟨rfl, node, found⟩

theorem openChild_node {child : NodeId} {next : Filesystem}
    (opened : Trail.openChild depth here name fs = .ok (child, next)) :
    ∃ node, next.node child = some node := by
  rw [openChild_run] at opened
  cases listed : Trail.dirEntriesSkel depth here fs with
  | error error =>
      rw [listed] at opened
      cases opened
  | ok result =>
      simp only [listed] at opened
      cases entry : findDirEntry result.1 name with
      | none =>
          rw [entry] at opened
          cases opened
      | some text =>
          simp only [entry] at opened
          obtain ⟨rfl, found⟩ := openEntry_ok opened
          exact found

/-- One step of the walk is one call of `svn_fs__dag_open`. -/
theorem walk_cons {lastOptional : Bool} {parents : ParentPath} {names : List Bytes} {node : NodeRev}
    (found : fs.node here = some node) :
    walk fs depth lastOptional here parents (name :: names) =
      match Trail.openChild depth here name fs with
      | .ok (child, _) => walk fs depth lastOptional child (.child (some child) name parents) names
      | .error error =>
          if error.code = .fsNotFound then
            if lastOptional = true ∧ names = [] then .ok (.child none name parents)
            else .error .fsNotFound
          else .error error.code := by
  rw [walk, openChild_run]
  by_cases directory : IsDirectory fs here
  · rw [if_pos directory, entryNode]
    have known := neverNotFound_dirEntriesSkel depth here fs
    cases listed : Trail.dirEntriesSkel depth here fs with
    | error error => simp only [if_neg (known error listed)]
    | ok result =>
        obtain ⟨entries, after⟩ := result
        obtain rfl := Trail.reads_dirEntriesSkel depth here fs entries after listed
        cases entry : findDirEntry entries name with
        | none => simp only [entry, if_true]
        | some text =>
            have others := neverNotFound_openEntry name text after
            simp only [entry, reduceCtorEq, if_false, openChild_run, listed]
            cases opened : Trail.openEntry name text after with
            | error error =>
                simp only [if_neg (others error opened)]
                rfl
            | ok result => rfl
  · obtain ⟨error, failed, code⟩ := dirEntriesSkel_file depth found directory
    rw [if_neg directory, failed]
    simp only [code]
    rfl

theorem ensureDirectory_run {id : NodeId} {node : NodeRev} (path : Bytes)
    (found : fs.node id = some node) :
    Trail.ensureDirectory id path fs =
      if IsDirectory fs id then .ok ((), fs)
      else .error ⟨.fsNotDirectory,
        "`" ++ bytesText path ++ "' is not a directory in filesystem `" ++ fs.nodes.path ++ "'"⟩ := by
  have kinds : IsDirectory fs id ↔ node.kind = .dir := by
    rw [IsDirectory, found]
    simp
  rw [Trail.ensureDirectory, bind_run (Trail.getNodeRevision_ok.mpr ⟨found, rfl⟩),
    bind_run (get_ok.mpr ⟨rfl, rfl⟩), ensure]
  by_cases directory : IsDirectory fs id
  · rw [if_pos directory, if_pos (kinds.mp directory)]
    rfl
  · rw [if_neg directory, if_neg fun dir => directory (kinds.mpr dir)]
    rfl

end Walk

section Loop

variable {fs : Filesystem} {depth : Nat} {lastOptional : Bool} {root : Root} {path : Bytes}

theorem endsInSlash_append {more : Bytes} (front : Bytes) (nonempty : more ≠ []) :
    EndsInSlash (front ++ more) ↔ EndsInSlash more := by
  rw [EndsInSlash, EndsInSlash, List.getLast?_append_of_ne_nil front nonempty]

theorem endsInSlash_name {name : Bytes} (solid : 47 ∉ name) : ¬ EndsInSlash name :=
  fun slash => solid (List.mem_of_getLast? slash)

/-- What is behind the slashes is empty, or it begins with a component. -/
theorem components_behind (rest : Bytes) :
    (rest.dropWhile (· = 47) = [] ∧ components rest = [] ∧ EndsInSlash (47 :: rest)) ∨
      (rest.dropWhile (· = 47) ≠ [] ∧ (∃ name names, components rest = name :: names) ∧
        (EndsInSlash (47 :: rest) ↔ EndsInSlash (rest.dropWhile (· = 47)))) := by
  induction rest with
  | nil => exact Or.inl ⟨rfl, rfl, rfl⟩
  | cons c rest ih =>
      by_cases slash : c = 47
      · subst slash
        rw [List.dropWhile_cons_of_pos (by simp), components_slash]
        exact ih
      · rw [List.dropWhile_cons_of_neg (by simpa using slash)]
        refine Or.inr ⟨by simp, ?_, endsInSlash_append [47] (by simp)⟩
        have next := nextEntryName_spec (c :: rest)
        generalize nextEntryName (c :: rest) = pair at next
        obtain ⟨name, behind⟩ := pair
        generalize whole : c :: rest = path at next ⊢
        cases next with
        | last solid =>
            subst whole
            exact ⟨c :: rest, [], components_name solid (by simp)⟩
        | @more _ tail solid =>
            have nonempty : name ≠ [] := by
              rintro rfl
              exact slash (List.cons.inj whole).1
            exact ⟨name, components tail, by rw [components_append, components_name solid nonempty]; rfl⟩

/-- In front of further components, a slash asks for no more than they do. -/
theorem walkPath_slash {here : NodeId} {parents : ParentPath} (bottom : parents.node = some here)
    (rest : Bytes) :
    walkPath fs depth lastOptional here parents (47 :: rest) =
      if IsDirectory fs here then
        walkPath fs depth lastOptional here parents (rest.dropWhile (· = 47))
      else .error .fsNotDirectory := by
  rw [walkPath, walkPath, components_slash, components_slashes]
  rcases components_behind rest with ⟨none, empty, slash⟩ | ⟨more, ⟨name, names, parts⟩, same⟩
  · rw [empty, none]
    show (if EndsInSlash (47 :: rest) then requireDirectory fs parents else .ok parents) = _
    rw [if_pos slash, requireDirectory, bottom]
    rfl
  · rw [parts]
    by_cases directory : IsDirectory fs here
    · rw [if_pos directory]
      by_cases slash : EndsInSlash (47 :: rest)
      · simp only [if_pos slash, if_pos (same.mp slash)]
      · simp only [if_neg slash, if_neg fun ends => slash (same.mpr ends)]
    · rw [if_neg directory, walk, if_neg directory]
      rfl

/-- A component and what is behind it. -/
theorem walkPath_name {here : NodeId} {parents : ParentPath} {node : NodeRev} {name tail : Bytes}
    (found : fs.node here = some node) (solid : 47 ∉ name) (nonempty : name ≠ [])
    (tails : tail = [] ∨ ∃ rest, tail = 47 :: rest) :
    walkPath fs depth lastOptional here parents (name ++ tail) =
      match Trail.openChild depth here name fs with
      | .ok (child, _) =>
          walkPath fs depth lastOptional child (.child (some child) name parents) tail
      | .error error =>
          if error.code = .fsNotFound then
            if lastOptional = true ∧ components tail = [] then .ok (.child none name parents)
            else .error .fsNotFound
          else .error error.code := by
  have parts : components (name ++ tail) = name :: components tail := by
    rcases tails with rfl | ⟨rest, rfl⟩
    · rw [List.append_nil, components_name solid nonempty, components_nil]
    · rw [components_append, components_name solid nonempty, components_slash]
      rfl
  have ends : EndsInSlash (name ++ tail) ↔ EndsInSlash tail := by
    rcases tails with rfl | ⟨rest, rfl⟩
    · rw [List.append_nil]
      exact ⟨fun slash => absurd slash (endsInSlash_name solid), fun slash => nomatch slash⟩
    · exact endsInSlash_append name (by simp)
  rw [walkPath, parts, walk_cons found]
  cases Trail.openChild depth here name fs with
  | ok result =>
      simp only [walkPath, ends]
  | error error =>
      simp only
      split
      · split
        · show (if _ then requireDirectory fs _ else Except.ok _) = _
          rw [requireDirectory]
          split <;> rfl
        · rfl
      · rfl

theorem notFound_code (tree : root ≠ .id) : (Trail.notFound root path).code = .fsNotFound := by
  cases root with
  | revision rev => rfl
  | txn txn => rfl
  | id => exact absurd rfl tree

/-- The step to a name that is not found, where `last` says that nothing comes behind it. -/
theorem outcome_missing (tree : root ≠ .id) (error : SvnError) {last : Prop} [Decidable last]
    (parents : ParentPath) :
    outcome (if error.code = .fsNotFound then
        if lastOptional = true ∧ last then Except.ok (parents, fs)
        else .error (Trail.notFound root path)
      else .error error) =
    (if error.code = .fsNotFound then
        if lastOptional = true ∧ last then Except.ok parents else .error .fsNotFound
      else .error error.code : Outcome ParentPath).map fun found => (found, fs) := by
  by_cases missing : error.code = .fsNotFound
  · rw [if_pos missing, if_pos missing]
    by_cases tolerated : lastOptional = true ∧ last
    · rw [if_pos tolerated, if_pos tolerated]
      rfl
    · rw [if_neg tolerated, if_neg tolerated]
      exact congrArg Except.error (notFound_code tree)
  · rw [if_neg missing, if_neg missing]
    rfl

/-- By induction on the fuel, which is more than the length of the rest. -/
theorem openPathFrom_walks (tree : root ≠ .id) (fuel : Nat) :
    ∀ here parents rest node, rest.length < fuel → parents.node = some here →
      fs.node here = some node →
      outcome (Trail.openPathFrom depth root path lastOptional fuel here parents rest fs) =
        (walkPath fs depth lastOptional here parents rest).map fun found => (found, fs) := by
  induction fuel with
  | zero => exact fun _ _ _ _ short => absurd short (Nat.not_lt_zero _)
  | succ fuel ih =>
      intro here parents rest node enough bottom found
      have next := nextEntryName_spec rest
      rw [Trail.openPathFrom]
      generalize nextEntryName rest = pair at next ⊢
      obtain ⟨entry, behind⟩ := pair
      cases next with
      | last solid =>
          by_cases empty : entry = []
          · subst empty
            rfl
          · simp only [if_neg empty]
            have followed : walkPath fs depth lastOptional here parents (entry ++ []) = _ :=
              walkPath_name found solid empty (Or.inl rfl)
            rw [List.append_nil] at followed
            rw [followed]
            cases opened : Trail.openChild depth here entry fs with
            | ok result =>
                obtain rfl := Trail.reads_openChild depth here entry fs _ _ opened
                rfl
            | error error =>
                simp only [components_nil, true_or]
                exact outcome_missing tree error _
      | @more _ tail solid =>
          have shorter : (tail.dropWhile (· = 47)).length < fuel := by
            have := (List.dropWhile_suffix (· = (47 : UInt8)) (l := tail)).length_le
            simp only [List.length_append, List.length_cons] at enough
            omega
          by_cases empty : entry = []
          · subst empty
            simp only [if_true]
            rw [List.nil_append, walkPath_slash bottom]
            by_cases directory : IsDirectory fs here
            · rw [if_pos directory, bind_run (by rw [ensureDirectory_run path found, if_pos directory])]
              exact ih here parents _ node shorter bottom found
            · rw [if_neg directory, bind_error (by rw [ensureDirectory_run path found, if_neg directory])]
              rfl
          · simp only [if_neg empty]
            rw [walkPath_name found solid empty (Or.inr ⟨tail, rfl⟩)]
            cases opened : Trail.openChild depth here entry fs with
            | ok result =>
                obtain ⟨child, after⟩ := result
                obtain rfl := Trail.reads_openChild depth here entry fs _ _ opened
                obtain ⟨there, present⟩ := openChild_node opened
                simp only
                rw [walkPath_slash rfl]
                by_cases directory : IsDirectory after child
                · rw [if_pos directory,
                    bind_run (by rw [ensureDirectory_run path present, if_pos directory])]
                  exact ih child _ _ there shorter rfl present
                · rw [if_neg directory,
                    bind_error (by rw [ensureDirectory_run path present, if_neg directory])]
                  rfl
            | error error =>
                have behind : (some (tail.dropWhile (· = 47)) = none ∨
                    some (tail.dropWhile (· = 47)) = some []) ↔ components (47 :: tail) = [] := by
                  rw [components_slash]
                  rcases components_behind tail with ⟨none, none', _⟩ | ⟨more, ⟨_, _, parts⟩, _⟩
                  · simp [none, none']
                  · simp [more, parts]
                simp only [behind]
                exact outcome_missing tree error _

/-- Each node is the entry of its name in the directory above it. Only the last one may be missing. -/
inductive Chain (fs : Filesystem) (depth : Nat) (top : NodeId) : ParentPath → List Bytes → Prop where
  | root : Chain fs depth top (.root top) []
  | child {parents : ParentPath} {names : List Bytes} {here : NodeId} {name : Bytes}
      {found : Option NodeId} (above : Chain fs depth top parents names)
      (bottom : parents.node = some here) (directory : IsDirectory fs here)
      (entry : entryNode fs depth here name = .ok found) :
      Chain fs depth top (.child found name parents) (names ++ [name])

theorem walk_chain {top : NodeId} (names : List Bytes) :
    ∀ here parents before found, Chain fs depth top parents before → parents.node = some here →
      walk fs depth lastOptional here parents names = .ok found →
      Chain fs depth top found (before ++ names) ∧ (found.node = none → lastOptional = true) := by
  induction names with
  | nil =>
      intro here parents before found chain bottom followed
      cases followed
      rw [List.append_nil]
      exact ⟨chain, fun none => nomatch bottom.symm.trans none⟩
  | cons name names ih =>
      intro here parents before found chain bottom followed
      rw [walk] at followed
      split at followed
      · next directory =>
          split at followed
          · cases followed
          · next missing =>
              split at followed
              · next tolerated =>
                  obtain ⟨optional, rfl⟩ := tolerated
                  cases followed
                  exact ⟨.child chain bottom directory missing, fun _ => optional⟩
              · cases followed
          · next child present =>
              have further := ih child _ (before ++ [name]) found
                (.child chain bottom directory present) rfl followed
              rw [List.append_assoc] at further
              exact further
      · cases followed

theorem requireDirectory_ok {parents found : ParentPath}
    (checked : requireDirectory fs parents = .ok found) : found = parents := by
  rw [requireDirectory] at checked
  split at checked
  · exact (Except.ok.inj checked).symm
  · split at checked
    · exact (Except.ok.inj checked).symm
    · cases checked

theorem walkPath_chain {top : NodeId} {found : ParentPath}
    (followed : walkPath fs depth lastOptional top (.root top) path = .ok found) :
    Chain fs depth top found (components path) ∧ (found.node = none → lastOptional = true) := by
  rw [walkPath] at followed
  obtain ⟨last, walked, checked⟩ := bind_eq_ok followed
  have same : found = last := by
    split at checked
    · exact requireDirectory_ok checked
    · exact (Except.ok.inj checked).symm
  rw [same]
  exact walk_chain (components path) top (.root top) [] last .root rfl walked

end Loop

section Paths

variable (fs : Filesystem) (depth : Nat) (lastOptional : Bool) (root : Root)

abbrev opened (path : Bytes) : Outcome (ParentPath × Filesystem) :=
  outcome (Trail.openPath depth root path lastOptional fs)

theorem rootNode_node {root : Root} {here : NodeId} {after : Filesystem}
    (started : Trail.rootNode root fs = .ok (here, after)) :
    after = fs ∧ ∃ node, fs.node here = some node := by
  obtain rfl := Trail.reads_rootNode root fs here after started
  have last : ∀ {id : NodeId} {middle : Filesystem},
      (Trail.getNodeRevision id >>= fun _ => pure id) middle = .ok (here, after) →
      ∃ node, after.node here = some node := by
    intro id middle ran
    simp only [bind_ok, Trail.getNodeRevision_ok, pure_ok] at ran
    obtain ⟨node, _, ⟨found, rfl⟩, rfl, rfl⟩ := ran
    exact ⟨node, found⟩
  refine ⟨rfl, ?_⟩
  unfold Trail.rootNode at started
  cases root with
  | revision rev =>
      obtain ⟨id, middle, _, ran⟩ := bind_ok.mp started
      exact last ran
  | txn txn =>
      obtain ⟨record, middle, _, ran⟩ := bind_ok.mp started
      exact last ran
  | id =>
      obtain ⟨id, middle, none, _⟩ := bind_ok.mp started
      cases none

theorem openPath_walks (tree : root ≠ .id) (path : Bytes) :
    opened fs depth lastOptional root path =
      (outcome (Trail.rootNode root fs)).bind fun top =>
        (walkPath fs depth lastOptional top.1 (.root top.1) path).map fun found => (found, fs) := by
  have whole : Trail.openPath depth root path lastOptional = (do
      let here ← Trail.rootNode root
      Trail.openPathFrom depth root path lastOptional (path.length + 1) here (.root here) path) := by
    cases root with
    | revision rev => rfl
    | txn txn => rfl
    | id => exact absurd rfl tree
  rw [opened, whole]
  cases started : Trail.rootNode root fs with
  | error error =>
      rw [bind_error started]
      rfl
  | ok result =>
      obtain ⟨here, after⟩ := result
      obtain ⟨rfl, node, present⟩ := rootNode_node fs started
      rw [bind_run started]
      exact openPathFrom_walks tree _ here _ path node (Nat.lt_succ_self _) rfl present

/-- A slash at the end changes nothing but that it asks for a directory. -/
theorem walkPath_append_slash (here : NodeId) (parents : ParentPath) (path : Bytes) :
    walkPath fs depth lastOptional here parents (path ++ [47]) =
      (walkPath fs depth lastOptional here parents path).bind (requireDirectory fs) := by
  have parts : components (path ++ [47]) = components path := by
    rw [components_append, components_nil, List.append_nil]
  have ends : EndsInSlash (path ++ [47]) := by simp [EndsInSlash]
  rw [walkPath, walkPath, parts]
  cases walk fs depth lastOptional here parents (components path) with
  | error code => rfl
  | ok found =>
      show (if EndsInSlash (path ++ [47]) then requireDirectory fs found else .ok found) =
        (if EndsInSlash path then requireDirectory fs found else .ok found).bind (requireDirectory fs)
      rw [if_pos ends]
      by_cases slash : EndsInSlash path
      · rw [if_pos slash]
        cases checked : requireDirectory fs found with
        | error code => rfl
        | ok same =>
            have again := requireDirectory_ok checked
            subst again
            exact checked.symm
      · rw [if_neg slash]
        rfl

/-- Only the components matter, and whether a slash stands at the end. -/
theorem openPath_followsComponents (tree : root ≠ .id) :
    (∀ path, opened fs depth lastOptional root path =
      (outcome (Trail.rootNode root fs)).bind fun top =>
        (walkPath fs depth lastOptional top.1 (.root top.1) path).map fun found => (found, fs)) ∧
    (∀ first second, components first = components second →
      (EndsInSlash first ↔ EndsInSlash second) →
      opened fs depth lastOptional root first = opened fs depth lastOptional root second) ∧
    (∀ path, opened fs depth lastOptional root (path ++ [47]) =
      (opened fs depth lastOptional root path).bind fun found =>
        (requireDirectory fs found.1).map fun same => (same, fs)) ∧
    ∀ path found after, opened fs depth lastOptional root path = .ok (found, after) →
      after = fs ∧ (found.node = none → lastOptional = true) ∧
        ∃ top, Trail.rootNode root fs = .ok (top, fs) ∧ Chain fs depth top found (components path) := by
  refine ⟨openPath_walks fs depth lastOptional root tree, ?_, ?_, ?_⟩
  · intro first second same slashes
    rw [openPath_walks fs depth lastOptional root tree, openPath_walks fs depth lastOptional root tree]
    simp only [walkPath, same, slashes]
  · intro path
    rw [openPath_walks fs depth lastOptional root tree, openPath_walks fs depth lastOptional root tree]
    cases outcome (Trail.rootNode root fs) with
    | error code => rfl
    | ok top =>
        show (walkPath _ _ _ _ _ _).map _ = ((walkPath _ _ _ _ _ _).map _).bind _
        rw [walkPath_append_slash]
        cases walkPath fs depth lastOptional top.1 (.root top.1) path <;> rfl
  · intro path found after successful
    rw [openPath_walks fs depth lastOptional root tree] at successful
    cases started : Trail.rootNode root fs with
    | error error =>
        rw [started] at successful
        cases successful
    | ok result =>
        obtain ⟨top, whole⟩ := result
        obtain ⟨rfl, _⟩ := rootNode_node fs started
        rw [started] at successful
        change (walkPath whole depth lastOptional top (.root top) path).map _ = _ at successful
        obtain ⟨last, followed, same⟩ := map_ok.mp successful
        cases same
        obtain ⟨chain, tolerated⟩ := walkPath_chain followed
        exact ⟨rfl, tolerated, top, rfl, chain⟩

theorem openPath_followsComponents_slashes :
    opened (Trail.dagInitFs "db") 9 true (.revision 0) [97, 47, 47] =
      opened (Trail.dagInitFs "db") 9 true (.revision 0) [47, 47, 97, 47] :=
  (openPath_followsComponents (Trail.dagInitFs "db") 9 true (.revision 0) (by decide)).2.1 _ _
    (by decide) (by decide)

end Paths

end Subversion.Fs
