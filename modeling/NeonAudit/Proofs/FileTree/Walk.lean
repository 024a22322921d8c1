import NeonAudit.Proofs.FileTree.Joined

/-!
# Where paths lead

`Walks` says step by step where a path leads: what is named by a step has to be in a directory, and
a link is replaced by the steps along its target. A path in two parts leads where the second part
leads from the end of the first, and steps to names lead down the tree as long as none of them is a
link.
-/

namespace NeonAudit.FileTree

/-- Whether the entry is a link. -/
def Entry.isLink : Entry → Bool
  | .link _ => true
  | _ => false

/-- Whether the entry is a directory. -/
def Entry.isDirectory : Entry → Bool
  | .directory _ => true
  | _ => false

section At

/-- Names in two parts lead where the second leads from the end of the first. -/
theorem Entry.at?_append (entry : Entry) (first rest : List String) :
    entry.at? (first ++ rest) = (entry.at? first).bind fun found => found.at? rest := by
  induction first generalizing entry with
  | nil => rfl
  | cons name first ih =>
    cases entry with
    | directory entries =>
      rw [List.cons_append, Entry.at?, Entry.at?]
      cases Entries.get? entries name with
      | none => rfl
      | some below => exact ih below
    | file bytes => rfl
    | link target => rfl

/-- A location in two parts is found from the entry at the first. -/
theorem at?_append (tree : FileTree) (first rest : List String) :
    tree.at? (first ++ rest) = (tree.at? first).bind fun found => found.at? rest :=
  Entry.at?_append _ first rest

/-- Names lead on only from a directory, to an entry of it. -/
theorem Entry.at?_cons_eq_some_iff {entry found : Entry} {name : String} {names : List String} :
    entry.at? (name :: names) = some found ↔ ∃ entries below, entry = .directory entries ∧
      Entries.get? entries name = some below ∧ below.at? names = some found := by
  cases entry with
  | directory entries =>
    rw [Entry.at?, Option.bind_eq_some_iff]
    constructor
    · rintro ⟨below, hget, hbelow⟩
      exact ⟨entries, below, rfl, hget, hbelow⟩
    · rintro ⟨_, below, ⟨⟩, hget, hbelow⟩
      exact ⟨below, hget, hbelow⟩
  | file bytes => simp [Entry.at?]
  | link target => simp [Entry.at?]

/-- An entry from which names lead on is no link unless it is their end. -/
theorem Entry.isLink_of_at? {entry found : Entry} {names : List String}
    (h : entry.at? names = some found) (hfound : found.isLink = false) :
    entry.isLink = false := by
  cases names with
  | nil =>
    obtain rfl := Option.some.inj h
    exact hfound
  | cons name names =>
    obtain ⟨entries, below, rfl, -⟩ := Entry.at?_cons_eq_some_iff.1 h
    rfl

end At

/-- Steps lead from one location to another, where so many links may be followed before and so many
are left after. -/
inductive Walks (tree : FileTree) : (links : Nat) → (start : List String) → List Step →
    (left : Nat) → (finish : List String) → Prop
  | done {links start} : Walks tree links start [] links start
  | stay {links start entries steps left finish} : tree.at? start = some (.directory entries) →
      Walks tree links start steps left finish →
        Walks tree links start (.stay :: steps) left finish
  | up {links start entries steps left finish} : tree.at? start = some (.directory entries) →
      Walks tree links start.dropLast steps left finish →
        Walks tree links start (.up :: steps) left finish
  | down {links start entries name entry steps left finish} :
      tree.at? start = some (.directory entries) → name.utf8ByteSize ≤ maxNameBytes →
        Entries.get? entries name = some entry → entry.isLink = false →
          Walks tree links (start ++ [name]) steps left finish →
            Walks tree links start (.down name :: steps) left finish
  | link {links start entries name target steps left finish} :
      tree.at? start = some (.directory entries) → name.utf8ByteSize ≤ maxNameBytes →
        Entries.get? entries name = some (.link target) →
          Walks tree links (startOf start target) (stepsOf target ++ steps) left finish →
            Walks tree (links + 1) start (.down name :: steps) left finish

section Walk

variable {tree : FileTree}

/-- What is walked with a way to go on from links is walked step by step, if what that way finds
is. -/
theorem exists_walks_of_walkVia
    {follow : List String → List Step → Except Failure (List String)} {links : Nat}
    (hfollow : ∀ {start steps finish}, follow start steps = .ok finish →
      ∃ fewer left, links = fewer + 1 ∧ Walks tree fewer start steps left finish)
    {start : List String} {steps : List Step} {finish : List String}
    (h : tree.walkVia follow start steps = .ok finish) :
    ∃ left, Walks tree links start steps left finish := by
  induction steps generalizing start with
  | nil =>
    cases h
    exact ⟨links, .done⟩
  | cons step steps ih =>
    unfold walkVia at h
    split at h
    · contradiction
    · contradiction
    · contradiction
    · rename_i entries hdirectory
      split at h
      · obtain ⟨left, hwalks⟩ := ih h
        exact ⟨left, .stay hdirectory hwalks⟩
      · obtain ⟨left, hwalks⟩ := ih h
        exact ⟨left, .up hdirectory hwalks⟩
      · split at h
        · contradiction
        · rename_i hsize
          have hsize := Nat.le_of_not_lt hsize
          split at h
          · contradiction
          · rename_i target hget
            obtain ⟨fewer, left, rfl, hwalks⟩ := hfollow h
            exact ⟨left, .link hdirectory hsize hget hwalks⟩
          · rename_i bytes hget
            obtain ⟨left, hwalks⟩ := ih h
            exact ⟨left, .down hdirectory hsize hget rfl hwalks⟩
          · rename_i below hget
            obtain ⟨left, hwalks⟩ := ih h
            exact ⟨left, .down hdirectory hsize hget rfl hwalks⟩

/-- What is walked step by step is walked with any way to go on from links that finds the same. -/
theorem walkVia_of_walks {follow : List String → List Step → Except Failure (List String)}
    {links left : Nat}
    (hfollow : ∀ {fewer start steps finish}, links = fewer + 1 →
      Walks tree fewer start steps left finish → follow start steps = .ok finish)
    {start : List String} {steps : List Step} {finish : List String}
    (h : Walks tree links start steps left finish) :
    tree.walkVia follow start steps = .ok finish := by
  induction h with
  | done => rfl
  | stay hdirectory _ ih =>
    rw [walkVia, hdirectory]
    exact ih hfollow
  | up hdirectory _ ih =>
    rw [walkVia, hdirectory]
    exact ih hfollow
  | @down links start entries name entry steps left finish hdirectory hsize hget hlink _ ih =>
    rw [walkVia, hdirectory]
    dsimp only
    rw [if_neg (Nat.not_lt_of_le hsize), hget]
    cases entry with
    | link target => contradiction
    | file bytes => exact ih hfollow
    | directory below => exact ih hfollow
  | link hdirectory hsize hget hwalks _ =>
    rw [walkVia, hdirectory]
    dsimp only
    rw [if_neg (Nat.not_lt_of_le hsize), hget]
    exact hfollow rfl hwalks

/-- Steps are walked to a location exactly if they lead there. -/
theorem walk_eq_ok_iff {links : Nat} {start finish : List String} {steps : List Step} :
    tree.walk links start steps = .ok finish ↔
      ∃ left, Walks tree links start steps left finish := by
  induction links generalizing start finish steps with
  | zero =>
    refine ⟨exists_walks_of_walkVia fun h => by contradiction, ?_⟩
    rintro ⟨left, hwalks⟩
    exact walkVia_of_walks (fun h => by contradiction) hwalks
  | succ links ih =>
    constructor
    · refine exists_walks_of_walkVia fun h => ?_
      obtain ⟨left, hwalks⟩ := ih.1 h
      exact ⟨links, left, rfl, hwalks⟩
    · rintro ⟨left, hwalks⟩
      exact walkVia_of_walks (fun h hrest => ih.2 ⟨left, Nat.succ.inj h ▸ hrest⟩) hwalks

/-- Steps in two parts lead where the second part leads from the end of the first. -/
theorem Walks.append {links middle left : Nat} {start between finish : List String}
    {first rest : List Step} (h : Walks tree links start first middle between)
    (h' : Walks tree middle between rest left finish) :
    Walks tree links start (first ++ rest) left finish := by
  induction h with
  | done => exact h'
  | stay hdirectory _ ih => exact .stay hdirectory (ih h')
  | up hdirectory _ ih => exact .up hdirectory (ih h')
  | down hdirectory hsize hget hlink _ ih => exact .down hdirectory hsize hget hlink (ih h')
  | link hdirectory hsize hget _ ih =>
    have hrest := ih h'
    rw [List.append_assoc] at hrest
    exact .link hdirectory hsize hget hrest

/-- Steps in two parts that lead somewhere pass the end of the first part. -/
theorem Walks.exists_between {links left : Nat} {start finish : List String}
    {first rest : List Step} (h : Walks tree links start (first ++ rest) left finish) :
    ∃ middle between, Walks tree links start first middle between ∧
      Walks tree middle between rest left finish := by
  generalize hall : first ++ rest = all at h
  induction h generalizing first with
  | done =>
    obtain ⟨rfl, rfl⟩ := List.append_eq_nil_iff.1 hall
    exact ⟨_, _, .done, .done⟩
  | stay hdirectory hrest ih =>
    rcases List.append_eq_cons_iff.1 hall with ⟨rfl, rfl⟩ | ⟨first, rfl, hfirst⟩
    · exact ⟨_, _, .done, .stay hdirectory hrest⟩
    · obtain ⟨middle, between, hbetween, hfinish⟩ := ih hfirst.symm
      exact ⟨middle, between, .stay hdirectory hbetween, hfinish⟩
  | up hdirectory hrest ih =>
    rcases List.append_eq_cons_iff.1 hall with ⟨rfl, rfl⟩ | ⟨first, rfl, hfirst⟩
    · exact ⟨_, _, .done, .up hdirectory hrest⟩
    · obtain ⟨middle, between, hbetween, hfinish⟩ := ih hfirst.symm
      exact ⟨middle, between, .up hdirectory hbetween, hfinish⟩
  | down hdirectory hsize hget hlink hrest ih =>
    rcases List.append_eq_cons_iff.1 hall with ⟨rfl, rfl⟩ | ⟨first, rfl, hfirst⟩
    · exact ⟨_, _, .done, .down hdirectory hsize hget hlink hrest⟩
    · obtain ⟨middle, between, hbetween, hfinish⟩ := ih hfirst.symm
      exact ⟨middle, between, .down hdirectory hsize hget hlink hbetween, hfinish⟩
  | link hdirectory hsize hget hrest ih =>
    rcases List.append_eq_cons_iff.1 hall with ⟨rfl, rfl⟩ | ⟨first, rfl, rfl⟩
    · exact ⟨_, _, .done, .link hdirectory hsize hget hrest⟩
    · obtain ⟨middle, between, hbetween, hfinish⟩ := ih (List.append_assoc _ _ _)
      exact ⟨middle, between, .link hdirectory hsize hget hbetween, hfinish⟩

/-- Steps to names lead down the tree if the last of the names is no link. -/
theorem walks_down_iff {links left : Nat} {start finish names : List String} {entry found : Entry}
    (hstart : tree.at? start = some entry) (hfound : entry.at? names = some found)
    (hlink : found.isLink = false) (hnames : ∀ name ∈ names, IsName name) :
    Walks tree links start (names.map .down) left finish ↔
      left = links ∧ finish = start ++ names := by
  induction names generalizing start entry with
  | nil =>
    rw [List.append_nil]
    constructor
    · rintro ⟨⟩
      exact ⟨rfl, rfl⟩
    · rintro ⟨rfl, rfl⟩
      exact .done
  | cons name names ih =>
    obtain ⟨hname, hnames⟩ := List.forall_mem_cons.1 hnames
    obtain ⟨entries, below, rfl, hget, hbelow⟩ := Entry.at?_cons_eq_some_iff.1 hfound
    have hbelowLink := Entry.isLink_of_at? hbelow hlink
    have hnext : tree.at? (start ++ [name]) = some below := by
      rw [at?_append, hstart]
      exact Entry.at?_cons_eq_some_iff.2 ⟨entries, below, rfl, hget, rfl⟩
    have hrest := ih hnext hbelow hnames
    rw [List.append_assoc, List.singleton_append] at hrest
    rw [← hrest]
    constructor
    · intro h
      cases h with
      | down _ _ _ _ h => exact h
      | link hdirectory _ hget' _ =>
        cases hstart.symm.trans hdirectory
        cases hget.symm.trans hget'
        contradiction
    · exact .down hstart hname.size_le hget hbelowLink

/-- A path leads to a location if its steps do, and it can be handed to the system. -/
theorem locate_eq_ok_iff {path : String} {location : List String} :
    tree.locate path = .ok location ↔ '\x00' ∉ path.toList ∧ path ≠ "" ∧
      path.utf8ByteSize ≤ maxPathBytes ∧
        ∃ left, Walks tree maxLinks (startOf tree.current path) (stepsOf path) left location := by
  rw [← walk_eq_ok_iff, locate]
  split
  · rename_i hnul
    exact iff_of_false (by simp) fun h => h.1 hnul
  · rename_i hnul
    split
    · rename_i hempty
      exact iff_of_false (by simp) fun h => h.2.1 (String.isEmpty_iff.1 hempty)
    · rename_i hempty
      split
      · rename_i hsize
        exact iff_of_false (by simp) fun h => Nat.not_le_of_lt hsize h.2.2.1
      · rename_i hsize
        exact ⟨fun h => ⟨hnul, fun heq => hempty (String.isEmpty_iff.2 heq),
          Nat.le_of_not_lt hsize, h⟩, fun h => h.2.2.2⟩

/-- A path leads to an entry if it leads to the location of the entry. -/
theorem entry_eq_ok_iff {path : String} {entry : Entry} : tree.entry path = .ok entry ↔
    ∃ location, tree.locate path = .ok location ∧ tree.at? location = some entry := by
  rw [FileTree.entry]
  cases tree.locate path with
  | error failure => simp
  | ok location =>
    cases hfound : tree.at? location <;> simp [hfound]

/-- Where a root leads to a location, a path that is the root joined with names starts with steps
that lead there. -/
theorem exists_walks_of_joinAll {root : String} {location : List String}
    (hroot : tree.locate root = .ok location) {names : List String}
    (hnames : ∀ name ∈ names, IsName name) (hne : names ≠ []) :
    ∃ steps left, stepsOf (Path.joinAll root names) = steps ++ names.map .down ∧
      Walks tree maxLinks (startOf tree.current (Path.joinAll root names)) steps left
        location := by
  obtain ⟨-, -, -, left, hwalks⟩ := locate_eq_ok_iff.1 hroot
  obtain ⟨steps, hsteps, hbase⟩ := exists_stepsOf_joinAll hnames hne root
  rw [startOf, isAbsolute_joinAll hnames, ← startOf]
  rcases hbase with hbase | hbase
  · exact ⟨steps, left, hsteps, hbase ▸ hwalks⟩
  · rw [hbase] at hwalks
    obtain ⟨middle, between, hbetween, hlast⟩ := hwalks.exists_between
    cases hlast with
    | stay _ hdone =>
      cases hdone
      exact ⟨steps, left, hsteps, hbetween⟩

end Walk

end NeonAudit.FileTree
