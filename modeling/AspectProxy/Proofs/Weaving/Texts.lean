import AspectProxy.Proofs.Weaving.Workshop

/-!
What work in a workshop leaves, whether it succeeds or fails: units that were read besides those before, and the hooks if
they were found meanwhile. Work from requested units differs from other work only where a file cannot be read. So all that a
workshop has comes of texts, and the text of a proxy that it makes holds the class of the proxy, whatever floats are in it.
-/

namespace AspectProxy

namespace Workshop

variable {w w' w'' : Workshop}

/-- A workshop after some work. -/
structure Grown (before after : Workshop) : Prop where
  aspect : after.aspect = before.aspect
  policy : after.policy = before.policy
  units : before.units.Extended after.units
  hooks : after.hooks = before.hooks ∨ before.hooks = none ∧ ∃ a found, after.units.unit? before.aspect = some a ∧
    HookSet.ofUnit before.aspect a = .ok found ∧ after.hooks = some found

theorem Grown.refl (w : Workshop) : Grown w w :=
  ⟨rfl, rfl, .refl w.units, .inl rfl⟩

theorem Grown.trans (first : Grown w w') (second : Grown w' w'') : Grown w w'' := by
  refine ⟨second.aspect.trans first.aspect, second.policy.trans first.policy, first.units.trans second.units, ?_⟩
  rcases first.hooks with kept | ⟨unknown, a, found, there, declared, known⟩
  · have later := second.hooks
    rwa [kept, first.aspect] at later
  · rcases second.hooks with kept | ⟨unknown', -⟩
    · exact .inr ⟨unknown, a, found, second.units.unit? there, declared, kept.trans known⟩
    · rw [known] at unknown'
      cases unknown'

theorem Grown.of_units {units : UnitStore} (grown : w.units.Extended units) : Grown w { w with units } :=
  ⟨rfl, rfl, grown, .inl rfl⟩

/-- Hooks that are known stay. -/
theorem Grown.keeps_hooks (grown : Grown w w') {hooks : HookSet} (known : w.hooks = some hooks) :
    w'.hooks = some hooks := by
  rcases grown.hooks with kept | ⟨unknown, -⟩
  · exact kept.trans known
  · rw [known] at unknown
    cases unknown

end Workshop

/-- Work every run of which leaves a workshop that has grown. -/
def Work.Grows (work : Work α) : Prop :=
  ∀ w : Workshop, w.Grown (work w).2

namespace Work.Grows

theorem pure (a : α) : Grows (Pure.pure a : Work α) :=
  .refl

theorem get : Grows (MonadState.get : Work Workshop) :=
  .refl

theorem throw (e : ProxyError) : Grows (MonadExcept.throw e : Work α) :=
  .refl

theorem bind {x : Work α} {f : α → Work β} (first : Grows x) (rest : ∀ a, Grows (f a)) : Grows (x >>= f) := by
  intro w
  have grown := first w
  simp only [Bind.bind, ExceptT.bind, ExceptT.mk, StateT.bind]
  rcases h : x w with ⟨_ | a, w'⟩ <;> simp only [h] at grown ⊢
  · exact grown
  · exact grown.trans (rest a w')

end Work.Grows

namespace Workshop

open Work

theorem fetch_grows (c : ClassName) : Grows (fetch UnitStore.get c) := by
  intro w
  have grown := w.units.get_extended c
  unfold fetch
  rcases got : w.units.get c with ⟨_ | u, units⟩ <;> rw [got] at grown <;> exact .of_units grown

theorem ofExcept_grows (r : Except ProxyError α) : Grows (ofExcept r) :=
  .refl

theorem liftExcept_grows (r : Except ProxyError α) : Grows (ancestorsWithin.liftExcept r : Work α) :=
  .refl

theorem ancestorsWithin_grows (origin : ClassName) (steps : Nat) (seen : List ClassName) (parent : Option ClassName) :
    Grows (ancestorsWithin (fetch UnitStore.get) origin steps seen parent) := by
  induction steps generalizing seen parent with
  | zero =>
    cases parent with
    | none => exact .pure _
    | some c => exact .throw _
  | succ steps ih =>
    cases parent with
    | none => exact .pure _
    | some c =>
      rw [ancestorsWithin]
      refine .bind (fetch_grows c) fun u => ?_
      split
      · exact .bind (.throw _) fun _ => .bind (liftExcept_grows _) fun a => .bind (liftExcept_grows _) fun next =>
          .bind (ih _ _) fun rest => .pure _
      · exact .bind (liftExcept_grows _) fun a => .bind (liftExcept_grows _) fun next =>
          .bind (ih _ _) fun rest => .pure _

theorem ancestors_grows (c : ClassName) (u : SourceUnit) : Grows (Workshop.ancestors UnitStore.get c u) :=
  .bind .get fun _ => .bind (liftExcept_grows _) fun _ => .bind (liftExcept_grows _) fun _ => ancestorsWithin_grows c _ _ _

theorem hookSet_grows : Grows hookSet := by
  intro w
  unfold hookSet findHooks
  cases known : w.hooks with
  | some hooks => exact .refl w
  | none =>
    have grown := w.units.get_extended w.aspect
    rcases got : w.units.get w.aspect with ⟨e | a, units⟩ <;> rw [got] at grown
    · exact ⟨rfl, rfl, grown, .inl known.symm⟩
    · dsimp only
      cases declared : HookSet.ofUnit w.aspect a with
      | error problem => exact ⟨rfl, rfl, grown, .inl known.symm⟩
      | ok found => exact ⟨rfl, rfl, grown, .inr ⟨known, a, found, UnitStore.unit?_get got, declared, rfl⟩⟩

/-- Making the unit of a proxy grows the workshop, whatever comes of it. -/
theorem proxyUnit_grows (i : Identity) : Grows (proxyUnit UnitStore.get i) :=
  .bind (fetch_grows i.base) fun u => .bind (ancestors_grows i.base u) fun _ => .bind hookSet_grows fun _ =>
    .bind .get fun _ => .bind (ofExcept_grows _) fun _ => .bind (ofExcept_grows _) fun _ => .pure _

end Workshop

/-- Work that comes out as other work does, unless a file is located that cannot be read: then it fails, while the other
work fails too or reads a unit. -/
structure Work.Follows (x y : Work α) : Prop where
  grows : Grows y
  run : ∀ w : Workshop, x w = y w ∨ ¬w.units.places.Readable ∧ (∃ e w', x w = (.error e, w') ∧ w.Grown w') ∧
    ∀ a w', y w = (.ok a, w') → w.units.units.length < w'.units.units.length

namespace Work.Follows

variable {x y : Work α} {f g : α → Work β}

theorem refl (grows : Grows x) : Follows x x :=
  ⟨grows, fun _ => .inl rfl⟩

theorem bind (first : Follows x y) (rest : ∀ a, Follows (f a) (g a)) : Follows (x >>= f) (y >>= g) where
  grows := first.grows.bind fun a => (rest a).grows
  run := by
    intro w
    rcases first.run w with same | ⟨unreadable, ⟨e, w', failed, grown⟩, reads⟩
    · have grown := first.grows w
      rcases ran : y w with ⟨e | a, w'⟩ <;> rw [ran] at same grown
      · rw [run_bind_error same, run_bind_error ran]
        exact .inl rfl
      · rw [run_bind same, run_bind ran]
        refine ((rest a).run w').imp_right ?_
        rintro ⟨unreadable, ⟨e, w'', failed, later⟩, reads⟩
        refine ⟨grown.units.places ▸ unreadable, ⟨e, w'', failed, grown.trans later⟩, fun b w₃ ended => ?_⟩
        exact Nat.lt_of_le_of_lt grown.units.units.length_le (reads b w₃ ended)
    · refine .inr ⟨unreadable, ⟨e, w', run_bind_error failed, grown⟩, fun b w'' ended => ?_⟩
      obtain ⟨a, w₃, ran, later⟩ := of_run_bind ended
      have grown := (rest a).grows w₃
      rw [later] at grown
      exact Nat.lt_of_lt_of_le (reads a w₃ ran) grown.units.units.length_le

end Work.Follows

namespace Workshop

open Work

theorem fetch_request (c : ClassName) (w : Workshop) : fetch UnitStore.request c w = fetch UnitStore.get c w ∨
    ¬w.units.places.Readable ∧ w.units.unit? c = none ∧ ∃ e, fetch UnitStore.request c w = (.error e, w) := by
  unfold fetch
  rcases w.units.request_cases c with same | ⟨path, fault, located, failed⟩
  · exact .inl (by rw [same])
  · refine .inr ⟨fun readable => readable c path fault located, ?_, .noUnit (.notFound c.text (fault.reason path)), ?_⟩
    · by_contra some
      obtain ⟨u, kept⟩ := Option.ne_none_iff_exists'.mp some
      rw [UnitStore.request_of_unit? kept] at failed
      cases failed
    · rw [failed]
      rfl

theorem fetch_follows (c : ClassName) : Follows (fetch UnitStore.request c) (fetch UnitStore.get c) := by
  refine ⟨fetch_grows c, fun w => (fetch_request c w).imp_right ?_⟩
  rintro ⟨unreadable, absent, e, failed⟩
  refine ⟨unreadable, ⟨e, w, failed, .refl w⟩, fun u w' fetched => ?_⟩
  obtain ⟨units, got, rfl⟩ := fetch_ok fetched
  rcases UnitStore.get_ok got with ⟨kept, -⟩ | ⟨-, -, -, -, -, rfl⟩
  · rw [absent] at kept
    cases kept
  · exact (List.length_append ..).symm ▸ Nat.lt_succ_self _

theorem ancestorsWithin_follows (origin : ClassName) (steps : Nat) (seen : List ClassName) (parent : Option ClassName) :
    Follows (ancestorsWithin (fetch UnitStore.request) origin steps seen parent)
      (ancestorsWithin (fetch UnitStore.get) origin steps seen parent) := by
  induction steps generalizing seen parent with
  | zero =>
    cases parent with
    | none => exact .refl (.pure _)
    | some c => exact .refl (.throw _)
  | succ steps ih =>
    cases parent with
    | none => exact .refl (.pure _)
    | some c =>
      rw [ancestorsWithin, ancestorsWithin]
      refine (fetch_follows c).bind fun u => ?_
      have above : Follows _ _ := (Follows.refl (liftExcept_grows (u.ancestor origin c))).bind fun a =>
        (Follows.refl (liftExcept_grows (u.parentOf origin a.declaration))).bind fun next =>
          (ih (c :: seen) next).bind fun rest => .refl (.pure (a :: rest))
      split
      · exact (Follows.refl (.throw _)).bind fun _ => above
      · exact above

theorem ancestors_follows (c : ClassName) (u : SourceUnit) :
    Follows (Workshop.ancestors UnitStore.request c u) (Workshop.ancestors UnitStore.get c u) :=
  (Follows.refl .get).bind fun _ => (Follows.refl (liftExcept_grows _)).bind fun _ =>
    (Follows.refl (liftExcept_grows _)).bind fun _ => ancestorsWithin_follows c _ _ _

/-- Requested units make the proxy that other units make, unless there are files that cannot be read. -/
theorem proxyUnit_follows (i : Identity) : Follows (proxyUnit UnitStore.request i) (proxyUnit UnitStore.get i) :=
  (fetch_follows i.base).bind fun u => (ancestors_follows i.base u).bind fun _ => (Follows.refl hookSet_grows).bind fun _ =>
    (Follows.refl .get).bind fun _ => (Follows.refl (ofExcept_grows _)).bind fun _ =>
      (Follows.refl (ofExcept_grows _)).bind fun _ => .refl (.pure _)

/-- A proxy that is made without reading a unit is made from requested units. -/
theorem proxyUnit_request_of_get {i : Identity} {proxy : SourceUnit} (made : proxyUnit UnitStore.get i w = (.ok proxy, w)) :
    proxyUnit UnitStore.request i w = (.ok proxy, w) := by
  rcases (proxyUnit_follows i).run w with same | ⟨-, -, reads⟩
  · exact same.trans made
  · exact absurd (reads proxy w made) (Nat.lt_irrefl _)

end Workshop

/-- A store of units that were read from texts. -/
def UnitStore.OfTexts (s : UnitStore) : Prop :=
  ∀ e ∈ s.units, ∃ text, SourceUnit.ofString? text = .ok e.2

namespace UnitStore.OfTexts

variable {s t : UnitStore} {c : ClassName} {u : SourceUnit}

theorem extended (h : s.OfTexts) (grown : s.Extended t) : t.OfTexts := by
  intro e he
  rcases grown.read e he with there | ⟨source, -, read⟩
  · exact h e there
  · exact ⟨source.text, read⟩

theorem ofString? (h : s.OfTexts) (kept : s.unit? c = some u) : ∃ text, SourceUnit.ofString? text = .ok u := by
  obtain ⟨e, found, rfl⟩ := Option.map_eq_some_iff.mp kept
  exact h e (List.mem_of_find?_eq_some found)

theorem readable (h : s.OfTexts) (kept : s.unit? c = some u) : u.Readable := by
  obtain ⟨text, read⟩ := h.ofString? kept
  exact SourceUnit.readable_of_ofString? read

end UnitStore.OfTexts

/-- A workshop whose units and whose hooks are of texts. -/
structure Workshop.OfTexts (w : Workshop) : Prop where
  units : w.units.OfTexts
  hooks : ∀ hooks ∈ w.hooks, ∃ text a, SourceUnit.ofString? text = .ok a ∧ HookSet.ofUnit w.aspect a = .ok hooks

theorem Workshop.OfTexts.grown {w w' : Workshop} (h : w.OfTexts) (grown : w.Grown w') : w'.OfTexts where
  units := h.units.extended grown.units
  hooks := by
    rw [grown.aspect]
    rcases grown.hooks with kept | ⟨-, a, found, there, declared, known⟩
    · rw [kept]
      exact h.hooks
    · rw [known]
      rintro _ ⟨⟩
      obtain ⟨text, read⟩ := (h.units.extended grown.units).ofString? there
      exact ⟨text, a, read, declared⟩

/-- The proxy is called as its class is, with an underscore and a suffix of name parts behind. -/
structure Identity.Suffixed (i : Identity) : Prop where
  parts : i.suffix.toList.all isNamePart = true
  text : i.proxy.text = proxyText i.base i.suffix

namespace Identity.Suffixed

variable {i : Identity}

theorem of_withSuffix {c : ClassName} {suffix : String} (parts : suffix.toList.all isNamePart = true)
    (made : withSuffix c suffix = .ok i) : i.Suffixed := by
  have whole := (withSuffix_ok parts made).2
  unfold withSuffix at made
  cases parsed : ClassName.parse (proxyText c suffix) with
  | error e => rw [parsed] at made; cases made
  | ok proxy =>
    rw [parsed] at made
    cases made
    exact ⟨parts, whole⟩

theorem numbered (c : ClassName) (n : Nat) : (numbered c n).Suffixed :=
  ⟨serialSuffix_parts n, rfl⟩

theorem short (h : i.Suffixed) : IsName i.proxy.short :=
  isName_proxyShort h.parts h.text

theorem package? (h : i.Suffixed) : i.proxy.package? = i.base.package? := by
  have text : i.proxy.text = i.base.text ++ ("_" ++ i.suffix) := by rw [h.text, proxyText, String.append_assoc]
  rw [ClassName.package?, text, beforeLastDot?_suffix (plain_of_parts h.parts)]
  rfl

theorem ne_base (h : i.Suffixed) : (i.proxy == i.base) = false := by
  apply ClassName.ne_of_length
  have one : "_".length = 1 := rfl
  rw [h.text, proxyText, String.length_append, String.length_append]
  omega

end Identity.Suffixed

namespace Workshop.Made

variable {w w' : Workshop} {i : Identity} {proxy u v : SourceUnit} {hooks : HookSet} {classes : List Ancestor}
  (made : Made w w' i proxy hooks u classes) (ofTexts : w.OfTexts)

include made

/-- The unit of a proxy has the package of the class. -/
theorem package : asciiLower (proxy.package.getD "") = asciiLower (i.base.package?.getD "") := by
  obtain ⟨d, wrapped, proxyable, -, rfl⟩ := weave_ok made.woven
  exact (proxyable_ok proxyable).2

include ofTexts

theorem unit_readable : u.Readable :=
  (ofTexts.units.extended made.grown).readable made.unit

theorem hooks_spelt : ∀ hook ∈ hooks.methods, hook.Meets Expr.Spelt := by
  rcases made.found with known | ⟨a, kept, declared⟩
  · obtain ⟨text, a, read, declared⟩ := ofTexts.hooks hooks known
    exact HookSet.meets (SourceUnit.readable_of_ofString? read) declared
  · exact HookSet.meets ((ofTexts.units.extended made.grown).readable kept) declared

/-- The unit of a proxy can be written, if the class is requested by a name of the language. -/
theorem readable (short : IsName i.proxy.short) (named : IsDotted i.base.text) : proxy.Readable :=
  weave_meets (made.unit_readable ofTexts) (made.hooks_spelt ofTexts) short made.woven named

/-- The text of a proxy is read as the unit that it holds, if the class is requested by a name of the language. -/
theorem ofString?_print (short : IsName i.proxy.short) (named : IsDotted i.base.text) (width : Nat) :
    SourceUnit.ofString? (proxy.print width) = .ok proxy.reread :=
  (made.readable ofTexts short named).ofString?_print width

/-- If the text of a proxy is read, the class was requested by a name of the language. -/
theorem ofString?_print_ok (short : IsName i.proxy.short) {width : Nat}
    (read : SourceUnit.ofString? (proxy.print width) = .ok v) :
    IsDotted i.base.text ∧ v = proxy.reread := by
  have named := isDotted_of_weave_read (made.unit_readable ofTexts) (made.hooks_spelt ofTexts) short made.woven read
  exact ⟨named, Except.ok.inj (read.symm.trans (made.ofString?_print ofTexts short named width))⟩

end Workshop.Made

end AspectProxy
