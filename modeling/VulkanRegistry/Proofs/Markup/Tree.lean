/-
Trees and the walks through them.

A walk through a tree comes by the tag of an element, then by everything inside the element, and
then by its end; and it comes by runs of text.  These are the marks of the tree (`Node.marks`).
Events leave marks too, so building a tree from events is the inverse of walking through it.

The marks of a document are those of a single element, with nothing but text around it
(`Element.Shown`), if and only if they pass a count of what is open (`SingleElement`): every end
belongs to an element that is open, none stays open, and only once is a tag read with nothing
open.  Then the tree is built, and it is the only one with these marks.  If they do not pass, the
build fails (`Element.rebuilds`).

What carries the build from event to event is that its frames and its root, walked through from
the outermost on, have left the marks so far (`Builder.Holds`).
-/
import VulkanRegistry.Markup.Tree
import VulkanRegistry.Proofs.Outcome

namespace VulkanRegistry.Markup

/-! ### Marks -/

/-- What a walk through a tree comes by. -/
inductive Mark
  | opening (tag : Tag)
  | closing
  | text (content : String)
  deriving DecidableEq, Repr

mutual

/-- The marks of a node. -/
def Node.marks : Node → List Mark
  | .element tag children => .opening tag :: (marksOf children ++ [.closing])
  | .text content => [.text content]

/-- The marks of several nodes, one behind the other. -/
def marksOf : List Node → List Mark
  | [] => []
  | node :: nodes => node.marks ++ marksOf nodes

end

/-- The marks of an element. -/
def Element.marks (e : Element) : List Mark :=
  e.toNode.marks

/-- The marks of an event.  An empty tag opens an element and closes it. -/
def Event.marks (event : Located Event) : List Mark :=
  match event.item with
  | .opening name attributes => [.opening { name, attributes, position := event.position }]
  | .empty name attributes => [.opening { name, attributes, position := event.position }, .closing]
  | .closing => [.closing]
  | .text content => [.text content]
  | .cdata content => [.text content]
  | .aside => []

/-- The marks of several events, one behind the other. -/
def eventMarks (events : List (Located Event)) : List Mark :=
  events.flatMap Event.marks

/-! ### Documents of one element -/

/-- What a mark adds to the number of open elements. -/
def Mark.weight : Mark → Int
  | opening _ => 1
  | closing => -1
  | text _ => 0

/-- How many elements are open behind these marks. -/
def depth : List Mark → Int
  | [] => 0
  | mark :: marks => mark.weight + depth marks

/-- Every end closes what is open, nothing stays open, and one element stands at depth zero. -/
structure SingleElement (marks : List Mark) : Prop where
  closes : ∀ front, front <+: marks → 0 ≤ depth front
  closed : depth marks = 0
  single : ∃! front, depth front = 0 ∧ ∃ tag, front ++ [.opening tag] <+: marks

/-- There is nothing but text. -/
def OnlyText (marks : List Mark) : Prop :=
  ∀ mark ∈ marks, ∃ content, mark = .text content

/-- The marks are those of the element, with nothing but text around it. -/
def Element.Shown (e : Element) (marks : List Mark) : Prop :=
  ∃ before behind, OnlyText before ∧ OnlyText behind ∧ marks = before ++ e.marks ++ behind

/-- A scan yields these events, and no fault. -/
def Scan.Yields (scan : Scan) (events : List (Located Event)) : Prop :=
  scan.fault = none ∧ List.Forall₂ (fun token event =>
    token.position = event.position ∧ Event.ofToken token.item = .ok event.item) scan.tokens events

/-! ### Depths -/

@[simp] theorem depth_nil : depth [] = 0 := rfl

@[simp] theorem depth_cons (mark : Mark) (marks : List Mark) :
    depth (mark :: marks) = mark.weight + depth marks := rfl

@[simp] theorem depth_append (marks others : List Mark) :
    depth (marks ++ others) = depth marks + depth others := by
  induction marks with
  | nil => simp
  | cons mark marks ih => rw [List.cons_append, depth_cons, depth_cons, ih, Int.add_assoc]

theorem OnlyText.depth_eq {marks : List Mark} (h : OnlyText marks) : depth marks = 0 := by
  induction marks with
  | nil => rfl
  | cons mark marks ih =>
      obtain ⟨content, rfl⟩ := h mark (by simp)
      rw [depth_cons, ih fun m hm => h m (by simp [hm])]
      rfl

theorem OnlyText.append {marks others : List Mark} (h : OnlyText marks)
    (hothers : OnlyText others) : OnlyText (marks ++ others) :=
  fun mark hmark => (List.mem_append.mp hmark).elim (h mark) (hothers mark)

theorem OnlyText.mono {marks front : List Mark} (h : OnlyText marks) (hle : front <+: marks) :
    OnlyText front :=
  fun mark hmark => h mark (hle.subset hmark)

theorem OnlyText.not_opening {marks front : List Mark} {tag : Tag} (h : OnlyText marks) :
    ¬ front ++ [.opening tag] <+: marks := by
  intro hle
  obtain ⟨content, heq⟩ := h (.opening tag) (hle.subset (by simp))
  cases heq

mutual

theorem Node.depth_marks (node : Node) : depth node.marks = 0 := by
  cases node with
  | element tag children =>
      simp [Node.marks, Mark.weight, depth_marksOf children]
  | text content => rfl

theorem depth_marksOf (nodes : List Node) : depth (marksOf nodes) = 0 := by
  cases nodes with
  | nil => rfl
  | cons node nodes =>
      rw [marksOf, depth_append, node.depth_marks, depth_marksOf nodes, Int.add_zero]

end

/-! ### Beginnings of a walk -/

/-- A list begins inside the first of two lists or goes on into the second. -/
theorem prefix_append_cases {α : Type} {front xs ys : List α} (h : front <+: xs ++ ys) :
    front <+: xs ∨ ∃ rest, front = xs ++ rest ∧ rest <+: ys := by
  rcases List.prefix_or_prefix_of_prefix h (List.prefix_append xs ys) with hin | ⟨rest, rfl⟩
  · exact .inl hin
  · exact .inr ⟨rest, rfl, (List.prefix_append_right_inj xs).mp h⟩

/-- The item behind the beginning stands in one of the two lists. -/
theorem concat_prefix_append_cases {α : Type} {front xs ys : List α} {x : α}
    (h : front ++ [x] <+: xs ++ ys) :
    front ++ [x] <+: xs ∨ ∃ rest, front = xs ++ rest ∧ rest ++ [x] <+: ys := by
  rcases prefix_append_cases h with hin | ⟨rest, heq, hrest⟩
  · exact .inl hin
  · rcases List.eq_nil_or_concat rest with rfl | ⟨rest, y, rfl⟩
    · rw [List.append_nil] at heq
      exact .inl (heq ▸ List.prefix_rfl)
    · rw [List.concat_eq_append] at heq hrest
      rw [← List.append_assoc] at heq
      obtain ⟨rfl, hxy⟩ := List.append_inj' heq rfl
      rw [← hxy] at hrest
      exact .inr ⟨rest, rfl, hrest⟩

/-- An element has begun, is being walked through, or lies behind. -/
theorem Element.prefix_marks_cases (e : Element) {front : List Mark} (h : front <+: e.marks) :
    front = [] ∨ (∃ inner, front = .opening e.toTag :: inner ∧ inner <+: marksOf e.children) ∨
      front = e.marks := by
  rcases List.prefix_cons_iff.mp h with rfl | ⟨inner, rfl, hinner⟩
  · exact .inl rfl
  · rcases List.prefix_concat_iff.mp hinner with rfl | hinner
    · exact .inr (.inr rfl)
    · exact .inr (.inl ⟨inner, rfl, hinner⟩)

mutual

/-- No end comes before the tag that it belongs to. -/
theorem Node.depth_nonneg {front : List Mark} (node : Node) (h : front <+: node.marks) :
    0 ≤ depth front := by
  cases node with
  | element tag children =>
      rcases Element.prefix_marks_cases { tag with children } h with
        rfl | ⟨inner, rfl, hinner⟩ | rfl
      · exact Int.le_refl 0
      · have hdepth := depth_nonneg_of_prefix children hinner
        rw [depth_cons, Mark.weight]
        omega
      · exact Int.le_of_eq (Node.depth_marks _).symm
  | text content =>
      have htext : OnlyText (Node.text content).marks := by simp [OnlyText, Node.marks]
      exact Int.le_of_eq (htext.mono h).depth_eq.symm

theorem depth_nonneg_of_prefix {front : List Mark} (nodes : List Node)
    (h : front <+: marksOf nodes) : 0 ≤ depth front := by
  cases nodes with
  | nil =>
      rw [List.prefix_nil.mp h]
      exact Int.le_refl 0
  | cons node nodes =>
      rcases prefix_append_cases h with hin | ⟨rest, rfl, hrest⟩
      · exact node.depth_nonneg hin
      · rw [depth_append, node.depth_marks, Int.zero_add]
        exact depth_nonneg_of_prefix nodes hrest

end

/-- Between its tag and its end an element is open. -/
theorem Element.eq_of_depth_eq_zero {e : Element} {front : List Mark} (h : front <+: e.marks)
    (hdepth : depth front = 0) : front = [] ∨ front = e.marks := by
  rcases e.prefix_marks_cases h with rfl | ⟨inner, rfl, hinner⟩ | rfl
  · exact .inl rfl
  · have hinner := depth_nonneg_of_prefix e.children hinner
    rw [depth_cons, Mark.weight] at hdepth
    omega
  · exact .inr rfl

/-! ### What is shown is a single element -/

theorem Element.marks_eq (e : Element) :
    e.marks = .opening e.toTag :: (marksOf e.children ++ [.closing]) := rfl

theorem Element.depth_marks (e : Element) : depth e.marks = 0 :=
  e.toNode.depth_marks

/-- The tag that is read with nothing open is that of the element. -/
theorem Element.eq_of_opening {e : Element} {before behind front : List Mark} {tag : Tag}
    (hbefore : OnlyText before) (hbehind : OnlyText behind) (hdepth : depth front = 0)
    (h : front ++ [.opening tag] <+: before ++ e.marks ++ behind) : front = before := by
  rcases concat_prefix_append_cases h with h | ⟨rest, rfl, hrest⟩
  · rcases concat_prefix_append_cases h with h | ⟨rest, rfl, hrest⟩
    · exact absurd h hbefore.not_opening
    · rw [depth_append, hbefore.depth_eq, Int.zero_add] at hdepth
      rcases e.eq_of_depth_eq_zero ((List.prefix_append _ _).trans hrest) hdepth with rfl | rfl
      · exact List.append_nil before
      · have hlength := hrest.length_le
        rw [List.length_append, List.length_singleton] at hlength
        omega
  · exact absurd hrest hbehind.not_opening

theorem Element.Shown.singleElement {e : Element} {marks : List Mark} (h : e.Shown marks) :
    SingleElement marks := by
  obtain ⟨before, behind, hbefore, hbehind, rfl⟩ := h
  constructor
  case closes =>
    intro front hfront
    rcases prefix_append_cases hfront with hfront | ⟨rest, rfl, hrest⟩
    · rcases prefix_append_cases hfront with hfront | ⟨rest, rfl, hrest⟩
      · exact Int.le_of_eq (hbefore.mono hfront).depth_eq.symm
      · rw [depth_append, hbefore.depth_eq, Int.zero_add]
        exact e.toNode.depth_nonneg hrest
    · simp [hbefore.depth_eq, e.depth_marks, (hbehind.mono hrest).depth_eq]
  case closed => simp [hbefore.depth_eq, e.depth_marks, hbehind.depth_eq]
  case single =>
    refine ⟨before, ⟨hbefore.depth_eq, e.toTag, ?_⟩, ?_⟩
    · rw [List.append_assoc]
      exact (List.prefix_append_right_inj before).mpr (by simp [e.marks_eq])
    · rintro front ⟨hdepth, tag, hfront⟩
      exact Element.eq_of_opening hbefore hbehind hdepth hfront

/-! ### A walk tells the tree -/

mutual

/-- The marks of a node end where they do, whatever follows, and tell the node. -/
theorem Node.eq_of_marks_append {rest rest' : List Mark} (node node' : Node)
    (h : node.marks ++ rest = node'.marks ++ rest') : node = node' ∧ rest = rest' := by
  cases node with
  | element tag children =>
      cases node' with
      | element tag' children' =>
          simp only [Node.marks, List.cons_append, List.cons.injEq, Mark.opening.injEq,
            List.append_assoc] at h
          obtain ⟨rfl, hinner⟩ := h
          obtain ⟨rfl, hrest⟩ := eq_of_marksOf_append children children' hinner
          exact ⟨rfl, hrest⟩
      | text content' => cases h
  | text content =>
      cases node' with
      | element tag' children' => cases h
      | text content' =>
          cases h
          exact ⟨rfl, rfl⟩

/-- Where an end follows, the marks of several nodes tell the nodes. -/
theorem eq_of_marksOf_append {rest rest' : List Mark} (nodes nodes' : List Node)
    (h : marksOf nodes ++ .closing :: rest = marksOf nodes' ++ .closing :: rest') :
    nodes = nodes' ∧ rest = rest' := by
  cases nodes with
  | nil =>
      cases nodes' with
      | nil => cases h; exact ⟨rfl, rfl⟩
      | cons node' nodes' => cases node' <;> cases h
  | cons node nodes =>
      cases nodes' with
      | nil => cases node <;> cases h
      | cons node' nodes' =>
          rw [marksOf, marksOf, List.append_assoc, List.append_assoc] at h
          obtain ⟨rfl, htail⟩ := node.eq_of_marks_append node' h
          obtain ⟨rfl, hrest⟩ := eq_of_marksOf_append nodes nodes' htail
          exact ⟨rfl, hrest⟩

end

/-- Different elements are not shown by the same marks. -/
theorem Element.Shown.unique {e e' : Element} {marks : List Mark} (h : e.Shown marks)
    (h' : e'.Shown marks) : e = e' := by
  obtain ⟨before, behind, hbefore, hbehind, rfl⟩ := h
  obtain ⟨before', behind', hbefore', hbehind', heq⟩ := h'
  have hopening : before' ++ [.opening e'.toTag] <+: before ++ e.marks ++ behind := by
    rw [heq, e'.marks_eq]
    simp
  obtain rfl : before' = before := Element.eq_of_opening hbefore hbehind hbefore'.depth_eq hopening
  rw [List.append_assoc, List.append_assoc] at heq
  obtain ⟨hnode, -⟩ := e.toNode.eq_of_marks_append e'.toNode (List.append_cancel_left heq)
  rw [← Option.some.injEq, ← Node.element?_toNode, ← Node.element?_toNode, hnode]

/-! ### The marks of a builder -/

theorem marksOf_append (nodes others : List Node) :
    marksOf (nodes ++ others) = marksOf nodes ++ marksOf others := by
  induction nodes with
  | nil => rfl
  | cons node nodes ih => rw [List.cons_append, marksOf, marksOf, ih, List.append_assoc]

/-- The marks of the open elements, outermost first. -/
def frameMarks : List Frame → List Mark
  | [] => []
  | frame :: outer => frameMarks outer ++ .opening frame.tag :: marksOf frame.reversed.reverse

/-- The marks of the root, if there is one yet. -/
def rootMarks (root : Option Element) : List Mark :=
  root.elim [] Element.marks

/-- The builder has been given the marks. -/
def Builder.Holds (b : Builder) (marks : List Mark) : Prop :=
  ∃ before behind, OnlyText before ∧ OnlyText behind ∧
    marks = before ++ rootMarks b.root ++ behind ++ frameMarks b.opened

theorem frameMarks_push (frame : Frame) (outer : List Frame) (node : Node) :
    frameMarks (frame.push node :: outer) = frameMarks (frame :: outer) ++ node.marks := by
  have hnode : marksOf [node] = node.marks := List.append_nil _
  simp [frameMarks, Frame.push, marksOf_append, hnode]

theorem depth_frameMarks (frames : List Frame) : depth (frameMarks frames) = frames.length := by
  induction frames with
  | nil => rfl
  | cons frame outer ih =>
      rw [frameMarks, depth_append, ih, depth_cons, depth_marksOf, Mark.weight, List.length_cons]
      omega

theorem depth_rootMarks (root : Option Element) : depth (rootMarks root) = 0 := by
  cases root with
  | none => rfl
  | some e => exact e.depth_marks

namespace Builder

variable {b b' : Builder} {e : Element} {marks all : List Mark} {event : Located Event}
  {events : List (Located Event)}

theorem Holds.depth_eq (h : b.Holds marks) : depth marks = b.opened.length := by
  obtain ⟨before, behind, hbefore, hbehind, rfl⟩ := h
  rw [depth_append, depth_append, depth_append, hbefore.depth_eq, depth_rootMarks, hbehind.depth_eq,
    depth_frameMarks]
  omega

/-- Nothing has been given to the empty builder. -/
theorem holds_empty : Holds empty [] :=
  ⟨[], [], nofun, nofun, rfl⟩

/-- To take the innermost frame away takes its marks away. -/
theorem Holds.exists_outer {frame : Frame} {outer : List Frame} (h : b.Holds marks)
    (hopened : b.opened = frame :: outer) :
    ∃ earlier, Holds { b with opened := outer } earlier ∧
      marks = earlier ++ .opening frame.tag :: marksOf frame.reversed.reverse := by
  obtain ⟨before, behind, hbefore, hbehind, rfl⟩ := h
  refine ⟨_, ⟨before, behind, hbefore, hbehind, rfl⟩, ?_⟩
  rw [hopened, frameMarks, ← List.append_assoc]

/-- Adds a child to the innermost frame. -/
theorem Holds.push {frame : Frame} {outer : List Frame} (h : b.Holds marks)
    (hopened : b.opened = frame :: outer) (node : Node) :
    Holds { b with opened := frame.push node :: outer } (marks ++ node.marks) := by
  obtain ⟨before, behind, hbefore, hbehind, rfl⟩ := h
  refine ⟨before, behind, hbefore, hbehind, ?_⟩
  rw [hopened, frameMarks_push, List.append_assoc]

theorem Holds.attach (h : b.Holds marks) (hattach : b.attach e = .ok b') :
    b'.Holds (marks ++ e.marks) := by
  unfold Builder.attach at hattach
  split at hattach
  · next frame outer hopened =>
      cases hattach
      exact h.push hopened e.toNode
  · next hopened =>
      split at hattach
      · cases hattach
      · next hroot =>
          cases hattach
          obtain ⟨before, behind, hbefore, hbehind, rfl⟩ := h
          refine ⟨before ++ behind, [], hbefore.append hbehind, nofun, ?_⟩
          simp [hroot, hopened, rootMarks, frameMarks]

theorem Holds.addText (h : b.Holds marks) (content : String) :
    (b.addText content).Holds (marks ++ [.text content]) := by
  unfold Builder.addText
  split
  · next hopened =>
      obtain ⟨before, behind, hbefore, hbehind, rfl⟩ := h
      refine ⟨before, behind ++ [.text content], hbefore, hbehind.append ?_, ?_⟩
      · simp [OnlyText]
      · simp [hopened, frameMarks]
  · next frame outer hopened => exact h.push hopened (.text content)

/-- What a step makes of a builder has been given the marks of its event, too. -/
theorem Holds.step (h : b.Holds marks) (hstep : b.step event = .ok b') :
    b'.Holds (marks ++ Event.marks event) := by
  obtain ⟨position, item⟩ := event
  cases item with
  | opening name attributes =>
      cases hstep
      obtain ⟨before, behind, hbefore, hbehind, rfl⟩ := h
      refine ⟨before, behind, hbefore, hbehind, ?_⟩
      rw [List.append_assoc]
      rfl
  | empty name attributes => exact h.attach hstep
  | closing =>
      unfold Builder.step at hstep
      dsimp only at hstep
      split at hstep
      · cases hstep
      · next frame outer hopened =>
          obtain ⟨earlier, hearlier, rfl⟩ := h.exists_outer hopened
          have hattach := hearlier.attach hstep
          rw [List.append_assoc]
          exact hattach
  | text content =>
      cases hstep
      exact h.addText content
  | cdata content =>
      cases hstep
      exact h.addText content
  | aside =>
      cases hstep
      rw [show Event.marks ⟨position, .aside⟩ = [] from rfl, List.append_nil]
      exact h

/-- The marks of all events have been given to what a run makes of a builder. -/
theorem Holds.run (h : b.Holds marks) (hrun : events.foldlM Builder.step b = .ok b') :
    b'.Holds (marks ++ eventMarks events) := by
  induction events generalizing b marks with
  | nil =>
      rw [Outcome.foldlM_nil_eq_ok] at hrun
      rw [← hrun, eventMarks, List.flatMap_nil, List.append_nil]
      exact h
  | cons event events ih =>
      obtain ⟨next, hstep, hrun⟩ := Outcome.foldlM_cons_eq_ok.mp hrun
      rw [eventMarks, List.flatMap_cons, ← List.append_assoc]
      exact ih (h.step hstep) hrun

theorem finish_eq_ok_iff : b.finish = .ok e ↔ b.opened = [] ∧ b.root = some e := by
  unfold finish
  split
  · next frame outer hopened => simp [hopened]
  · next hopened =>
      split
      · next root hroot => simp [hopened, hroot]
      · next hroot => simp [hroot]

theorem Holds.shown (h : b.Holds marks) (hfinish : b.finish = .ok e) : e.Shown marks := by
  obtain ⟨hopened, hroot⟩ := finish_eq_ok_iff.mp hfinish
  obtain ⟨before, behind, hbefore, hbehind, rfl⟩ := h
  refine ⟨before, behind, hbefore, hbehind, ?_⟩
  rw [hopened, hroot, frameMarks, List.append_nil]
  rfl

/-! ### Builds that succeed -/

/-- Behind a root no other element begins. -/
theorem Holds.root_eq_none {tag : Tag} (h : b.Holds marks) (hopened : b.opened = [])
    (hsingle : SingleElement all) (hle : marks ++ [.opening tag] <+: all) : b.root = none := by
  cases hroot : b.root with
  | none => rfl
  | some root =>
      obtain ⟨before, behind, hbefore, hbehind, rfl⟩ := h
      rw [hopened, hroot, frameMarks, List.append_nil] at hle
      have hdepth : depth (before ++ rootMarks (some root) ++ behind) = 0 := by
        rw [depth_append, depth_append, hbefore.depth_eq, depth_rootMarks, hbehind.depth_eq]
        rfl
      have hroot : before ++ [.opening root.toTag] <+: all := by
        refine List.IsPrefix.trans ?_ hle
        simp [rootMarks, root.marks_eq]
      have heq := hsingle.single.unique ⟨hdepth, tag, hle⟩ ⟨hbefore.depth_eq, _, hroot⟩
      simp [rootMarks, root.marks_eq] at heq

theorem Holds.exists_attach (h : b.Holds marks) (hsingle : SingleElement all)
    (hle : marks ++ [.opening e.toTag] <+: all) : ∃ b', b.attach e = .ok b' := by
  unfold Builder.attach
  split
  · exact ⟨_, rfl⟩
  · next hopened =>
      rw [h.root_eq_none hopened hsingle hle]
      exact ⟨_, rfl⟩

theorem Holds.exists_step (h : b.Holds marks) (hsingle : SingleElement all)
    (hle : marks ++ Event.marks event <+: all) : ∃ b', b.step event = .ok b' := by
  obtain ⟨position, item⟩ := event
  cases item with
  | opening name attributes => exact ⟨_, rfl⟩
  | empty name attributes =>
      refine h.exists_attach hsingle (List.IsPrefix.trans ?_ hle)
      simp [Event.marks]
  | closing =>
      unfold Builder.step
      dsimp only
      split
      · next hopened =>
          have hdepth := hsingle.closes _ hle
          rw [depth_append, h.depth_eq, hopened] at hdepth
          simp [Event.marks, Mark.weight] at hdepth
      · next frame outer hopened =>
          obtain ⟨earlier, hearlier, rfl⟩ := h.exists_outer hopened
          refine hearlier.exists_attach hsingle (List.IsPrefix.trans ?_ hle)
          simp [Frame.close]
  | text content => exact ⟨_, rfl⟩
  | cdata content => exact ⟨_, rfl⟩
  | aside => exact ⟨_, rfl⟩

theorem Holds.exists_run (h : b.Holds marks)
    (hsingle : SingleElement (marks ++ eventMarks events)) :
    ∃ b', events.foldlM Builder.step b = .ok b' := by
  induction events generalizing b marks with
  | nil => exact ⟨b, rfl⟩
  | cons event events ih =>
      rw [eventMarks, List.flatMap_cons, ← List.append_assoc] at hsingle
      obtain ⟨next, hstep⟩ := h.exists_step hsingle (List.prefix_append _ _)
      obtain ⟨b', hrun⟩ := ih (h.step hstep) hsingle
      exact ⟨b', Outcome.foldlM_cons_eq_ok.mpr ⟨next, hstep, hrun⟩⟩

theorem Holds.exists_finish (h : b.Holds marks) (hsingle : SingleElement marks) :
    ∃ e, b.finish = .ok e := by
  have hopened : b.opened = [] := by
    have hdepth := h.depth_eq
    rw [hsingle.closed] at hdepth
    exact List.length_eq_zero_iff.mp (by omega)
  cases hroot : b.root with
  | some e => exact ⟨e, finish_eq_ok_iff.mpr ⟨hopened, hroot⟩⟩
  | none =>
      obtain ⟨before, behind, hbefore, hbehind, rfl⟩ := h
      obtain ⟨front, ⟨-, tag, hfront⟩, -⟩ := hsingle.single
      rw [hopened, hroot, frameMarks, List.append_nil, rootMarks, Option.elim_none,
        List.append_nil] at hfront
      exact absurd hfront (hbefore.append hbehind).not_opening

/-! ### Builds that fail -/

variable {failure : RegistryError}

theorem attach_error (h : b.attach e = .error failure) :
    ∃ position what, failure = .malformed position what := by
  unfold attach at h
  split at h
  · cases h
  · split at h <;> cases h
    exact ⟨_, _, rfl⟩

theorem step_error (h : b.step event = .error failure) :
    ∃ position what, failure = .malformed position what := by
  obtain ⟨position, item⟩ := event
  cases item with
  | empty name attributes => exact attach_error h
  | closing =>
      unfold step at h
      dsimp only at h
      split at h
      · cases h
        exact ⟨_, _, rfl⟩
      · exact attach_error h
  | opening name attributes => cases h
  | text content => cases h
  | cdata content => cases h
  | aside => cases h

theorem finish_error (h : b.finish = .error failure) :
    ∃ position what, failure = .malformed position what := by
  unfold finish at h
  split at h
  · cases h
    exact ⟨_, _, rfl⟩
  · split at h <;> cases h
    exact ⟨_, _, rfl⟩

theorem run_error (h : events.foldlM Builder.step b = .error failure) :
    ∃ position what, failure = .malformed position what := by
  induction events generalizing b with
  | nil => cases h
  | cons event events ih =>
      rw [List.foldlM_cons] at h
      cases hstep : b.step event with
      | error cause =>
          rw [hstep] at h
          cases h
          exact step_error hstep
      | ok next =>
          rw [hstep] at h
          exact ih h

/-! ### Events read from a document -/

/-- A token of an event has the effect of the event, even where it is not read. -/
theorem readToken_eq_step {token : Located Token} (hposition : token.position = event.position)
    (hitem : Event.ofToken token.item = .ok event.item) : b.readToken token = b.step event := by
  obtain ⟨position, item⟩ := event
  obtain rfl : token.position = position := hposition
  unfold readToken
  split
  · next raw hopened htoken =>
      rw [htoken] at hitem
      unfold Event.ofToken at hitem
      dsimp only at hitem
      split at hitem
      · cases hitem
      · cases hitem
        simp [step, addText, hopened]
  · rw [hitem]

theorem foldlM_readToken {tokens : List (Located Token)}
    (h : List.Forall₂ (fun token event => token.position = event.position ∧
      Event.ofToken token.item = .ok event.item) tokens events) :
    tokens.foldlM Builder.readToken b = events.foldlM Builder.step b := by
  induction h generalizing b with
  | nil => rfl
  | cons hread _ ih =>
      rw [List.foldlM_cons, List.foldlM_cons, readToken_eq_step hread.1 hread.2]
      exact bind_congr fun next => ih

end Builder

namespace Element

theorem ofEvents_eq_ok_iff {events : List (Located Event)} {e : Element} :
    Element.ofEvents events = .ok e ↔
      ∃ b, events.foldlM Builder.step Builder.empty = .ok b ∧ b.finish = .ok e :=
  Outcome.bind_eq_ok

theorem shown_of_ofEvents {events : List (Located Event)} {e : Element}
    (h : Element.ofEvents events = .ok e) : e.Shown (eventMarks events) := by
  obtain ⟨b, hrun, hfinish⟩ := ofEvents_eq_ok_iff.mp h
  exact (Builder.holds_empty.run hrun).shown hfinish

theorem exists_ofEvents {events : List (Located Event)} (h : SingleElement (eventMarks events)) :
    ∃ e, Element.ofEvents events = .ok e := by
  obtain ⟨b, hrun⟩ := Builder.holds_empty.exists_run h
  obtain ⟨e, hfinish⟩ := (Builder.holds_empty.run hrun).exists_finish h
  exact ⟨e, ofEvents_eq_ok_iff.mpr ⟨b, hrun, hfinish⟩⟩

theorem ofEvents_error {events : List (Located Event)} {failure : RegistryError}
    (h : Element.ofEvents events = .error failure) :
    ∃ position what, failure = .malformed position what := by
  unfold Element.ofEvents at h
  cases hrun : events.foldlM Builder.step Builder.empty with
  | error cause =>
      rw [hrun] at h
      cases h
      exact Builder.run_error hrun
  | ok b =>
      rw [hrun] at h
      exact Builder.finish_error h

theorem parse_eq_ofEvents {source : String} {events : List (Located Event)}
    (h : (scan source).Yields events) : Element.parse source = Element.ofEvents events := by
  obtain ⟨hfault, hread⟩ := h
  unfold Element.parse Element.ofScan Element.ofEvents
  rw [Builder.foldlM_readToken hread, hfault]

/-- A tree is built exactly if the events are those of a single element, it is the one whose walk
they are, and otherwise the document is malformed.  A document is the events that it yields. -/
theorem rebuilds (events : List (Located Event)) :
    ((∃ root, Element.ofEvents events = .ok root) ↔ SingleElement (eventMarks events)) ∧
    (∀ root, Element.ofEvents events = .ok root ↔ root.Shown (eventMarks events)) ∧
    (¬ SingleElement (eventMarks events) →
      ∃ position what, Element.ofEvents events = .error (.malformed position what)) ∧
    ∀ source, (scan source).Yields events → Element.parse source = Element.ofEvents events := by
  have hsingle : (∃ root, Element.ofEvents events = .ok root) ↔ SingleElement (eventMarks events) :=
    ⟨fun ⟨_, h⟩ => (shown_of_ofEvents h).singleElement, exists_ofEvents⟩
  refine ⟨hsingle, ?_, ?_, fun source h => parse_eq_ofEvents h⟩
  · intro root
    constructor
    · exact shown_of_ofEvents
    · intro hshown
      obtain ⟨found, hfound⟩ := exists_ofEvents hshown.singleElement
      rw [hfound, (shown_of_ofEvents hfound).unique hshown]
  · intro hno
    cases h : Element.ofEvents events with
    | ok root => exact absurd (hsingle.mp ⟨root, h⟩) hno
    | error failure =>
        obtain ⟨position, what, rfl⟩ := ofEvents_error h
        exact ⟨position, what, rfl⟩

/-- A bit mask with a member in it, and text of every kind. -/
def maskText : String :=
  "<type category='bitmask'>&amp;<name>a</name><![CDATA[<b>]]><c/></type>\n"

def maskEvents : List (Located Event) :=
  [⟨0, .opening "type" [("category", "bitmask")]⟩, ⟨25, .text "&"⟩, ⟨30, .opening "name" []⟩,
    ⟨36, .text "a"⟩, ⟨37, .closing⟩, ⟨44, .cdata "<b>"⟩, ⟨59, .empty "c" []⟩, ⟨63, .closing⟩,
    ⟨70, .text "\n"⟩]

def maskRoot : Element :=
  { name := "type", attributes := [("category", "bitmask")], position := 0,
    children := [.text "&", .element ⟨"name", [], 30⟩ [.text "a"], .text "<b>",
      .element ⟨"c", [], 59⟩ []] }

/-- The text at the end is not in the tree, and two such documents in a row are none. -/
theorem rebuilds_maskText :
    (scan maskText).Yields maskEvents ∧ Element.parse maskText = .ok maskRoot ∧
    ¬ SingleElement (eventMarks (maskEvents ++ maskEvents)) ∧
    ∃ position what,
      Element.ofEvents (maskEvents ++ maskEvents) = .error (.malformed position what) := by
  have hyields : (scan maskText).Yields maskEvents := ⟨by decide +kernel, by decide +kernel⟩
  obtain ⟨-, hshown, -, hparse⟩ := rebuilds maskEvents
  obtain ⟨hsingle, -, hfails, -⟩ := rebuilds (maskEvents ++ maskEvents)
  have hroot : maskRoot.Shown (eventMarks maskEvents) :=
    ⟨[], [.text "\n"], by simp [OnlyText], by simp [OnlyText], rfl⟩
  have hno : ¬ SingleElement (eventMarks (maskEvents ++ maskEvents)) := by
    intro h
    obtain ⟨root, hroot⟩ := hsingle.mpr h
    cases hroot
  exact ⟨hyields, (hparse _ hyields).trans ((hshown _).mpr hroot), hno, hfails hno⟩

end Element

end VulkanRegistry.Markup
