/-
Closing commands under their aliases.

Names lead to places and aliases are followed by name, so a chain of aliases and a chain of
mentions between places are two views of one thing.  Whatever is reached from a command lies
on its trail if that stops, so pulling in the trail of every active command is enough; and
if nothing that is reached is undeclared or removed, the trail stops.
-/
import VulkanRegistry.Proofs.Activation.Inherit

namespace VulkanRegistry

variable {table : TypeTable} {index : EntityIndex} {start set next : ActiveSet}

namespace EntityIndex

theorem aliasLink_eq_some {name target : String} :
    index.aliasLink name = some target ↔
      ∃ place decl, index.command? name = some place ∧ index.decl? place = some decl ∧
        decl.aliasOf = some target := by
  simp only [aliasLink, Option.bind_eq_some_iff]
  constructor
  · rintro ⟨decl, ⟨place, hplace, hdecl⟩, halias⟩
    exact ⟨place, decl, hplace, hdecl, halias⟩
  · rintro ⟨place, decl, hplace, hdecl, halias⟩
    exact ⟨decl, ⟨place, hplace, hdecl⟩, halias⟩

theorem mem_placed {place : Nat} {decl : CommandDecl} :
    (place, decl) ∈ index.placed ↔ index.decl? place = some decl := by
  constructor
  · intro h
    obtain ⟨⟨found, i⟩, hmem, heq⟩ := List.mem_map.mp h
    simp only [Prod.mk.injEq] at heq
    obtain ⟨rfl, rfl⟩ := heq
    exact List.mem_zipIdx_iff_getElem?.mp hmem
  · intro h
    exact List.mem_map.mpr ⟨(decl, place), List.mem_zipIdx_iff_getElem?.mpr h, rfl⟩

/-- A name that leads to a place is the name that is declared there. -/
theorem command?_eq_of_decl? {name : String} {place : Nat} {decl : CommandDecl}
    (hname : index.command? name = some place) (hdecl : index.decl? place = some decl) :
    decl.name = name := by
  obtain ⟨found, hfound, hsame⟩ := decl?_of_command? hname
  rw [hdecl, Option.some.injEq] at hfound
  rw [hfound, hsame]

/-! ### Names and places -/

theorem mentionStep_of_aliasLink (table : TypeTable) {name target : String} {dest : Nat}
    (hlink : index.aliasLink name = some target) (hdest : index.command? target = some dest) :
    ∃ place, index.command? name = some place ∧
      MentionStep table index (.command place) (.command dest) := by
  obtain ⟨place, decl, hplace, hdecl, halias⟩ := aliasLink_eq_some.mp hlink
  exact ⟨place, hplace, .command target, .aliased hdecl halias, by simp [Mention.entity?, hdest]⟩

/-- Links between names are mentions between their places. -/
theorem transGen_of_links (table : TypeTable) {name target : String} {dest : Nat}
    (h : Relation.TransGen (Trail.Links index.aliasLink) name target)
    (hdest : index.command? target = some dest) :
    ∃ place, index.command? name = some place ∧
      Relation.TransGen (MentionStep table index) (.command place) (.command dest) := by
  induction h generalizing dest with
  | single hlink =>
      obtain ⟨place, hplace, hstep⟩ := mentionStep_of_aliasLink table hlink hdest
      exact ⟨place, hplace, .single hstep⟩
  | tail _ hlink ih =>
      obtain ⟨middle, hmiddle, hstep⟩ := mentionStep_of_aliasLink table hlink hdest
      obtain ⟨place, hplace, hsteps⟩ := ih hmiddle
      exact ⟨place, hplace, hsteps.tail hstep⟩

theorem reaches_of_leads (table : TypeTable) {name target : String} {place dest : Nat}
    (hname : index.command? name = some place) (h : Trail.Leads index.aliasLink name target)
    (hdest : index.command? target = some dest) :
    Reaches table index (.command place) (.command dest) := by
  rcases Relation.reflTransGen_iff_eq_or_transGen.mp h with rfl | h
  · rw [hname, Option.some.injEq] at hdest
    rw [hdest]
  · obtain ⟨found, hfound, hsteps⟩ := transGen_of_links table h hdest
    rw [hname, Option.some.injEq] at hfound
    rw [hfound]
    exact hsteps.to_reflTransGen

/-- Mentions between places are links between their names. -/
theorem leads_of_reaches {name : String} {place dest : Nat}
    (hname : index.command? name = some place) {e : Entity}
    (h : Reaches table index (.command place) e) (he : e = .command dest) :
    ∃ target, Trail.Leads index.aliasLink name target ∧ index.command? target = some dest := by
  induction h generalizing dest with
  | refl =>
      rw [Entity.command.injEq] at he
      exact ⟨name, Relation.ReflTransGen.refl, by rw [hname, he]⟩
  | tail _ hstep ih =>
      rw [he] at hstep
      obtain ⟨middle, decl, target, hmiddle, hdecl, halias, hdest⟩ := hstep.command_right
      obtain ⟨via, hvia, hplace⟩ := ih hmiddle
      have hlink : index.aliasLink via = some target :=
        aliasLink_eq_some.mpr ⟨middle, decl, hplace, hdecl, halias⟩
      exact ⟨target, hvia.tail hlink, hdest⟩

/-- A cycle of mentions is a cycle of links. -/
theorem links_of_transGen {name : String} {place : Nat} (hname : index.command? name = some place)
    (h : Relation.TransGen (MentionStep table index) (.command place) (.command place)) :
    Relation.TransGen (Trail.Links index.aliasLink) name name := by
  obtain ⟨b, hreaches, hstep⟩ := Relation.TransGen.tail'_iff.mp h
  obtain ⟨middle, decl, target, rfl, hdecl, halias, hdest⟩ := hstep.command_right
  obtain ⟨via, hvia, hplace⟩ := leads_of_reaches hname hreaches rfl
  have hlink : index.aliasLink via = some target :=
    aliasLink_eq_some.mpr ⟨middle, decl, hplace, hdecl, halias⟩
  obtain ⟨found, hfound, hsame⟩ := decl?_of_command? hname
  have htarget : target = name := by
    rw [← command?_eq_of_decl? hdest hfound, hsame]
  rw [htarget] at hlink
  exact Relation.TransGen.tail' hvia hlink

/-- Types mention no commands. -/
theorem exists_command_of_reaches {a : Entity} {dest : Nat}
    (h : Reaches table index a (.command dest)) : ∃ place, a = .command place := by
  generalize he : Entity.command dest = e at h
  induction h generalizing dest with
  | refl => exact ⟨dest, he.symm⟩
  | tail _ hstep ih =>
      rw [← he] at hstep
      obtain ⟨place, _, _, hplace, -⟩ := hstep.command_right
      exact ih hplace.symm

/-! ### Pulling in a chain -/

theorem pullCommand_eq_ok {origins : List Origin} {pair : String × String} :
    index.pullCommand origins set pair = .ok next ↔
      ∃ place, index.command? pair.2 = some place ∧ (set.commandAt place).removed = false ∧
        next = set.requireCommand place origins := by
  unfold pullCommand
  obtain ⟨referrer, target⟩ := pair
  constructor
  · intro h
    dsimp only at h
    split at h
    · simp at h
    · next place hplace =>
        split at h
        · simp at h
        · next hremoved => exact ⟨place, hplace, by simpa using hremoved, (Except.ok.inj h).symm⟩
  · rintro ⟨place, hplace, hremoved, rfl⟩
    simp only [hplace, hremoved, Bool.false_eq_true, if_false]

/-- The name leads to a command that was not removed and has these origins. -/
def Receives (index : EntityIndex) (start set : ActiveSet) (origins : List Origin)
    (target : String) : Prop :=
  ∃ place, index.command? target = some place ∧ (start.commandAt place).removed = false ∧
    ∀ o ∈ origins, o ∈ (set.commandAt place).origins

/-- The chain of an active command stops, and everything on it has the command's origins. -/
def Followed (index : EntityIndex) (start set : ActiveSet) (placed : Nat × CommandDecl) : Prop :=
  (start.commandAt placed.1).isActive = true →
    (index.aliasTrail placed.2.name).ending = .stops ∧
      ∀ name ∈ (index.aliasTrail placed.2.name).later,
        index.Receives start set (start.commandAt placed.1).origins name

theorem Receives.mono {origins : List Origin} {target : String}
    (h : index.Receives start set origins target)
    (hgrown : ∀ e, ∀ o ∈ (set.record e).origins, o ∈ (next.record e).origins) :
    index.Receives start next origins target := by
  obtain ⟨place, hplace, hremoved, hpassed⟩ := h
  exact ⟨place, hplace, hremoved, fun o ho => hgrown (.command place) o (hpassed o ho)⟩

theorem Followed.mono {placed : Nat × CommandDecl} (h : index.Followed start set placed)
    (hgrown : ∀ e, ∀ o ∈ (set.record e).origins, o ∈ (next.record e).origins) :
    index.Followed start next placed := by
  intro hactive
  obtain ⟨hstops, hall⟩ := h hactive
  exact ⟨hstops, fun name hname => (hall name hname).mono hgrown⟩

/-- Pulling in what the chain of an active command leads to is a step on the way. -/
theorem between_of_pullCommand {name : String} {place : Nat} {origins : List Origin}
    (hset : Between table index start set) (hname : index.command? name = some place)
    (horigins : ∀ o ∈ origins, o ∈ (set.commandAt place).origins) {pair : String × String}
    (hleads : Trail.Leads index.aliasLink name pair.2) {via : ActiveSet}
    (hvia : Between table index start via) (h : index.pullCommand origins via pair = .ok next) :
    Between table index start next ∧ index.Receives start next origins pair.2 ∧
      ∀ e, ∀ o ∈ (via.record e).origins, o ∈ (next.record e).origins := by
  obtain ⟨dest, hdest, hremoved, rfl⟩ := pullCommand_eq_ok.mp h
  have hreaches : Reaches table index (.command place) (.command dest) :=
    reaches_of_leads table hname hleads hdest
  have hholds : via.Holds (.command dest) := by
    rw [ActiveSet.Holds, hvia.sized.2]
    exact lt_of_command? hdest
  have hkept : (start.record (.command dest)).removed = false :=
    (hvia.removed (.command dest)).symm.trans hremoved
  rw [ActiveSet.requireCommand_eq_update]
  have hinherited : ∀ o ∈ origins, ∃ a, Reaches table index a (.command dest) ∧
      o ∈ (start.record a).origins := by
    intro o ho
    obtain ⟨a, ha, hao⟩ := hset.inherited (.command place) o (horigins o ho)
    exact ⟨a, ha.trans hreaches, hao⟩
  refine ⟨hvia.pull hholds hkept hinherited, ⟨dest, hdest, hkept, ?_⟩, ?_⟩
  · intro o ho
    exact (ActiveSet.mem_origins_update_require (x := .command dest) hholds).mpr (Or.inl ⟨rfl, ho⟩)
  · intro e o ho
    exact (ActiveSet.mem_origins_update_require hholds).mpr (Or.inr ho)

/-- After pulling in a chain, everything on it has the origins of the command it starts from. -/
theorem between_of_pullChain {name : String} {place : Nat} (hset : Between table index start set)
    (hname : index.command? name = some place)
    (h : ((index.aliasTrail name).path.zip (index.aliasTrail name).later).foldlM
      (index.pullCommand (set.commandAt place).origins) set = .ok next) :
    Between table index start next ∧
      (∀ y ∈ (index.aliasTrail name).later,
        index.Receives start next (set.commandAt place).origins y) ∧
      ∀ e, ∀ o ∈ (set.record e).origins, o ∈ (next.record e).origins := by
  obtain ⟨⟨hbetween, hgrown⟩, hpulled, -⟩ := Outcome.foldlM_achieves
    (fun via => Between table index start via ∧
      ∀ e, ∀ o ∈ (set.record e).origins, o ∈ (via.record e).origins)
    (fun pair via => index.Receives start via (set.commandAt place).origins pair.2)
    (fun pair hpair via after hvia hafter => by
      have hleads : Trail.Leads index.aliasLink name pair.2 :=
        (Trail.leads_of_mem_path (List.of_mem_zip hpair).1).tail (Trail.links_of_mem_zip hpair)
      obtain ⟨hnext, hgot, hmore⟩ :=
        between_of_pullCommand hset hname (fun o ho => ho) hleads hvia.1 hafter
      exact ⟨⟨hnext, fun e o ho => hmore e o (hvia.2 e o ho)⟩, hgot,
        fun _ hother => hother.mono hmore⟩)
    ⟨hset, fun _ _ ho => ho⟩ h
  refine ⟨hbetween, ?_, hgrown⟩
  intro y hy
  obtain ⟨x, hx⟩ := Trail.exists_mem_zip hy
  exact hpulled (x, y) hx

/-- Closing one command is a step on the way, after which its chain is followed. -/
theorem closeCommand_spec (hformed : Formed table index start)
    (hset : Between table index start set) {placed : Nat × CommandDecl}
    (hplaced : placed ∈ index.placed)
    (h : index.closeCommand set placed = .ok next) :
    Between table index start next ∧ index.Followed start next placed ∧
      ∀ e, ∀ o ∈ (set.record e).origins, o ∈ (next.record e).origins := by
  obtain ⟨place, decl⟩ := placed
  unfold closeCommand at h
  dsimp only at h
  split at h
  · next hactive =>
      obtain ⟨name, hname⟩ := hset.named hformed hactive
      have hsame := command?_eq_of_decl? hname (mem_placed.mp hplaced)
      rw [← hsame] at hname
      obtain ⟨closed, hclosed, h⟩ := Outcome.bind_eq_ok.mp h
      obtain ⟨hbetween, hpulled, hgrown⟩ := between_of_pullChain hset hname hclosed
      split at h
      · next hstops =>
          rw [Outcome.pure_eq_ok] at h
          rw [← h]
          refine ⟨hbetween, fun _ => ⟨hstops, ?_⟩, hgrown⟩
          intro y hy
          obtain ⟨dest, hdest, hremoved, hall⟩ := hpulled y hy
          exact ⟨dest, hdest, hremoved, fun o ho => hall o (hset.grown (.command place) o ho)⟩
      · simp [throw, throwThe, MonadExceptOf.throw] at h
      · simp [throw, throwThe, MonadExceptOf.throw] at h
  · next hactive =>
      rw [Outcome.pure_eq_ok] at h
      rw [← h]
      refine ⟨hset, ?_, fun _ _ ho => ho⟩
      intro hstart
      obtain ⟨o, ho⟩ := Activation.isActive_iff.mp hstart
      exact absurd (Activation.isActive_iff.mpr ⟨o, hset.grown (.command place) o ho⟩) hactive

/-- After closing all commands, the chain of every active command is followed. -/
theorem closeCommands_spec (hformed : Formed table index start)
    (h : index.closeCommands start = .ok set) :
    Between table index start set ∧ ∀ placed ∈ index.placed, index.Followed start set placed := by
  obtain ⟨hbetween, hall, -⟩ := Outcome.foldlM_achieves (Between table index start)
    (fun placed via => index.Followed start via placed)
    (fun placed hplaced via after hvia hafter => by
      obtain ⟨hnext, hfollowed, hgrown⟩ := closeCommand_spec hformed hvia hplaced hafter
      exact ⟨hnext, hfollowed, fun _ hother => hother.mono hgrown⟩)
    (Between.refl hformed) h
  exact ⟨hbetween, hall⟩

/-! ### What following chains means -/

/-- What is reached from an active command stands on the chain of that command, which stops. -/
theorem exists_trail_of_followed (hformed : Formed table index start)
    (hall : ∀ placed ∈ index.placed, index.Followed start set placed) {a : Entity} {place : Nat}
    (hactive : (start.record a).isActive = true)
    (hreaches : Reaches table index a (.command place)) :
    ∃ name via, Trail.Leads index.aliasLink name via ∧ index.command? via = some place ∧
      (index.aliasTrail name).ending = .stops ∧
      ∀ y ∈ (index.aliasTrail name).later, index.Receives start set (start.record a).origins y := by
  obtain ⟨first, rfl⟩ := exists_command_of_reaches hreaches
  obtain ⟨name, hname⟩ := hformed.named first hactive
  obtain ⟨found, hfound, hsame⟩ := decl?_of_command? hname
  obtain ⟨hstops, hlater⟩ := hall (first, found) (mem_placed.mpr hfound) hactive
  rw [show (first, found).2.name = name from hsame] at hstops hlater
  obtain ⟨via, hvia, hplace⟩ := leads_of_reaches hname hreaches rfl
  exact ⟨name, via, hvia, hplace, hstops, hlater⟩

/-- Whatever reaches an alias from the start passes its origins on to the alias's command. -/
theorem passed_of_followed (hformed : Formed table index start)
    (hall : ∀ placed ∈ index.placed, index.Followed start set placed) {a : Entity} {place : Nat}
    {decl : CommandDecl} {target : String} (hactive : (start.record a).isActive = true)
    (hreaches : Reaches table index a (.command place)) (hdecl : index.decl? place = some decl)
    (halias : decl.aliasOf = some target) :
    index.Receives start set (start.record a).origins target := by
  obtain ⟨name, via, hvia, hplace, hstops, hlater⟩ :=
    exists_trail_of_followed hformed hall hactive hreaches
  have hlink : index.aliasLink via = some target :=
    aliasLink_eq_some.mpr ⟨place, decl, hplace, hdecl, halias⟩
  exact hlater target (Trail.mem_later_of_transGen hstops (Relation.TransGen.tail' hvia hlink))

/-- A chain that is followed does not come back. -/
theorem acyclic_of_followed (hformed : Formed table index start)
    (hall : ∀ placed ∈ index.placed, index.Followed start set placed) {a : Entity} {place : Nat}
    (hactive : (start.record a).isActive = true)
    (hreaches : Reaches table index a (.command place)) :
    ¬ Relation.TransGen (MentionStep table index) (.command place) (.command place) := by
  intro hcycle
  obtain ⟨name, via, hvia, hplace, hstops, -⟩ :=
    exists_trail_of_followed hformed hall hactive hreaches
  have hlast := Trail.leads_last_of_mem_path (Trail.mem_path_of_leads hstops hvia)
  exact Trail.not_transGen_self (Trail.next_last_of_stops hstops) hlast
    (links_of_transGen hplace hcycle)

/-! ### Why closing does not fail -/

/-- Whatever the links of a chain lead to can be pulled in. -/
theorem declared_of_leads (hclosable : Closable table index start) {a : Entity} {name via : String}
    {place : Nat} (hactive : (start.record a).isActive = true)
    (hreaches : Reaches table index a (.command place)) (hname : index.command? name = some place)
    (hvia : Trail.Leads index.aliasLink name via) {target : String}
    (hlink : index.aliasLink via = some target) :
    ∃ dest, index.command? target = some dest ∧ (start.commandAt dest).removed = false := by
  obtain ⟨middle, decl, hmiddle, hdecl, halias⟩ := aliasLink_eq_some.mp hlink
  have hmiddleReached := hreaches.trans (reaches_of_leads table hname hvia hmiddle)
  obtain ⟨b, hb, hremoved⟩ :=
    hclosable.declared a _ (.command target) hactive hmiddleReached (.aliased hdecl halias)
  obtain ⟨dest, hdest, rfl⟩ := Option.map_eq_some_iff.mp hb
  exact ⟨dest, hdest, hremoved⟩

/-- The chain of a command that is reached stops. -/
theorem stops_of_closable (hclosable : Closable table index start) {a : Entity} {name : String}
    {place : Nat} (hactive : (start.record a).isActive = true)
    (hreaches : Reaches table index a (.command place)) (hname : index.command? name = some place) :
    (index.aliasTrail name).ending = .stops := by
  cases hending : (index.aliasTrail name).ending with
  | stops => rfl
  | cycles target =>
      obtain ⟨hlink, hmem⟩ := Trail.next_last_of_cycles hending
      rw [List.append_nil] at hmem
      have hcycle : Relation.TransGen (Trail.Links index.aliasLink) target target :=
        Relation.TransGen.tail' (Trail.leads_last_of_mem_path hmem) hlink
      obtain ⟨dest, hdest, -⟩ := declared_of_leads hclosable hactive hreaches hname
        (Trail.leads_of_mem_path (Trail.last_mem_path _)) hlink
      obtain ⟨found, hfound, hsteps⟩ := transGen_of_links table hcycle hdest
      rw [hdest, Option.some.injEq] at hfound
      rw [← hfound] at hsteps
      have hdestReached := hreaches.trans
        (reaches_of_leads table hname (Trail.leads_of_mem_path hmem) hdest)
      exact absurd hsteps (hclosable.acyclic a dest hactive hdestReached)
  | leaves target =>
      obtain ⟨hlink, hnot⟩ := Trail.next_last_of_leaves hending
      obtain ⟨dest, hdest, -⟩ := declared_of_leads hclosable hactive hreaches hname
        (Trail.leads_of_mem_path (Trail.last_mem_path _)) hlink
      rw [command?_eq_none_iff.mpr hnot] at hdest
      simp at hdest

theorem exists_closeCommand (hformed : Formed table index start)
    (hclosable : Closable table index start) (hset : Between table index start set)
    {placed : Nat × CommandDecl} (hplaced : placed ∈ index.placed) :
    ∃ next, index.closeCommand set placed = .ok next := by
  obtain ⟨place, decl⟩ := placed
  unfold closeCommand
  dsimp only
  split
  · next hactive =>
      obtain ⟨a, ha, hreaches⟩ := hset.exists_active (e := .command place) hactive
      obtain ⟨name, hname⟩ := hset.named hformed hactive
      have hsame := command?_eq_of_decl? hname (mem_placed.mp hplaced)
      rw [← hsame] at hname
      have hpulled : ∃ closed, ((index.aliasTrail decl.name).path.zip
          (index.aliasTrail decl.name).later).foldlM
            (index.pullCommand (set.commandAt place).origins) set = .ok closed := by
        refine Outcome.exists_foldlM_eq_ok (Between table index start) ?_ hset
        intro pair hpair via hvia
        have hpath := Trail.leads_of_mem_path (List.of_mem_zip hpair).1
        have hlink := Trail.links_of_mem_zip hpair
        obtain ⟨dest, hdest, hremoved⟩ :=
          declared_of_leads hclosable ha hreaches hname hpath hlink
        have hkept : (via.commandAt dest).removed = false :=
          (hvia.removed (.command dest)).trans hremoved
        have hok : index.pullCommand (set.commandAt place).origins via pair = .ok _ :=
          pullCommand_eq_ok.mpr ⟨dest, hdest, hkept, rfl⟩
        obtain ⟨hnext, -⟩ :=
          between_of_pullCommand hset hname (fun o ho => ho) (hpath.tail hlink) hvia hok
        exact ⟨_, hok, hnext⟩
      obtain ⟨closed, hclosed⟩ := hpulled
      rw [stops_of_closable hclosable ha hreaches hname, hclosed]
      exact ⟨closed, rfl⟩
  · exact ⟨set, rfl⟩

theorem exists_closeCommands (hformed : Formed table index start)
    (hclosable : Closable table index start) : ∃ set, index.closeCommands start = .ok set := by
  refine Outcome.exists_foldlM_eq_ok (Between table index start) ?_ (Between.refl hformed)
  intro placed hplaced via hvia
  obtain ⟨next, hnext⟩ := exists_closeCommand hformed hclosable hvia hplaced
  exact ⟨next, hnext, (closeCommand_spec hformed hvia hplaced hnext).1⟩

end EntityIndex

end VulkanRegistry
