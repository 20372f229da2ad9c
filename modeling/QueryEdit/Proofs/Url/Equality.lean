import QueryEdit.Proofs.Query.Refinement
import QueryEdit.Proofs.Session
import QueryEdit.Proofs.Url.RoundTrip

/-!
# Equality of URLs

The text of a well-formed URL tells its parts, since each of them ends where the next
one begins. So URLs are equal exactly if their texts are
(`WellFormedUrl.beq_iff_render`), even though a text need not be read back as the
URL it was written for.

Equal URLs may store their pairs in different slots. This is never seen: equal URLs
answer alike (`Url.Same.agree`) and stay equal under the same edits (`Url.Same.edit`).
So sessions with equal URLs reply alike to every command, and have equal URLs
afterwards (`Session.Alike.step`, `Session.Alike.run`).
-/

namespace QueryEdit

/-! ### Texts -/

namespace WellFormedUrl

open Url

variable (u v : WellFormedUrl)

/-- The fragment is cut off the text where it begins. -/
theorem cutFirst_render :
    Text.cutFirst '#' u.render.toList =
      (u.location.toChars ++ queryChars u.query, u.fragment.map String.toList) := by
  rw [render, String.toList_ofList]
  exact cutFirst_fragmentChars u.fragment
    (List.not_mem_append u.wellFormed.not_mem.2 (not_mem_queryChars u.validQuery))

/-- The text of a URL tells its parts. -/
theorem parts_of_render_eq (h : u.render = v.render) :
    u.location = v.location ∧ u.query.toList = v.query.toList ∧ u.fragment = v.fragment := by
  have hcut := u.cutFirst_render
  rw [h, v.cutFirst_render, Prod.mk.injEq] at hcut
  obtain ⟨hbody, hf⟩ := hcut
  -- The text before the fragment is cut at the `?` of the query, if there is one.
  obtain ⟨hl, hq⟩ := cutFirst_queryChars u.validQuery u.wellFormed.not_mem.1
  obtain ⟨hl', hq'⟩ := cutFirst_queryChars v.validQuery v.wellFormed.not_mem.1
  rw [← hbody, hl'] at hl
  rw [← hbody, hq'] at hq
  refine ⟨?_, ?_, (Option.map_injective (fun _ _ => String.toList_inj.1) hf).symm⟩
  · have hp := u.wellFormedLocation.parse_toChars
    rw [← hl, v.wellFormedLocation.parse_toChars, Except.ok.injEq] at hp
    exact hp.symm
  · have hps := congrArg Query.toList hq
    rw [Query.toList_ofList, Query.toList_ofList] at hps
    exact hps.symm

/-- URLs with the same parts have one text. -/
theorem render_eq (hl : u.location = v.location) (hps : u.query.toList = v.query.toList)
    (hf : u.fragment = v.fragment) : u.render = v.render := by
  rw [render, render, queryChars_eq u.validQuery, queryChars_eq v.validQuery, hl, hps, hf]

/-- Well-formed URLs are equal exactly if their texts are. -/
theorem beq_iff_render : (u.toUrl == v.toUrl) = true ↔ u.render = v.render := by
  rw [beq_iff]
  exact ⟨fun ⟨hl, hps, hf⟩ => u.render_eq v hl hps hf, u.parts_of_render_eq v⟩

end WellFormedUrl

/-! ### Equal URLs -/

namespace Url

variable {s t : String} {u v w x : Url}

/-- The URLs are equal, and well-formed. -/
structure Same (u v : Url) : Prop where
  left : u.WellFormed
  right : v.WellFormed
  beq : (u == v) = true

/-- Whatever the URLs are asked, they answer alike. -/
structure Agree (u v : Url) : Prop where
  scheme : u.scheme = v.scheme
  userinfo : u.userinfo = v.userinfo
  host : u.host = v.host
  port : u.port = v.port
  path : u.path = v.path
  fragment : u.fragment = v.fragment
  get? : ∀ key, u.get? key = v.get? key
  getAll : ∀ key, u.getAll key = v.getAll key
  query : ∀ op, (u.query.step op).1 = (v.query.step op).1
  render : u.render = v.render

/-- A well-formed URL is equal to itself. -/
theorem Same.refl (h : u.WellFormed) : Same u u :=
  ⟨h, h, (WellFormedUrl.beq_iff ⟨u, h⟩ ⟨u, h⟩).2 ⟨rfl, rfl, rfl⟩⟩

/-- Equal URLs have the same location, the same pairs and the same fragment. -/
theorem Same.parts_eq (h : Same u v) :
    u.location = v.location ∧ u.query.toList = v.query.toList ∧ u.fragment = v.fragment :=
  (WellFormedUrl.beq_iff ⟨u, h.left⟩ ⟨v, h.right⟩).1 h.beq

/-- Equal URLs answer alike. -/
theorem Same.agree (h : Same u v) : Agree u v := by
  obtain ⟨hl, hps, hf⟩ := h.parts_eq
  lift u to WellFormedUrl using h.left
  lift v to WellFormedUrl using h.right
  constructor
  case fragment => exact hf
  case get? =>
    intro key
    rw [u.get?_eq, v.get?_eq, hps]
  case getAll =>
    intro key
    rw [u.getAll_eq, v.getAll_eq, hps]
  case query =>
    intro op
    rw [u.validQuery.answer_step, v.validQuery.answer_step, hps]
  case render => exact u.render_eq v hl hps hf
  -- The other parts are parts of the location.
  case scheme => rw [scheme, scheme, hl]
  case userinfo => rw [userinfo, userinfo, hl]
  case host => rw [host, host, hl]
  case port => rw [port, port, hl]
  case path => rw [path, path, hl]

/-- Equal URLs stay equal under the same edit. -/
theorem Same.edit (h : Same u v) (m : Mutation) : Same (u.edit m) (v.edit m) := by
  obtain ⟨hl, hps, hf⟩ := h.parts_eq
  lift u to WellFormedUrl using h.left
  lift v to WellFormedUrl using h.right
  have hps' : (u.edit m).query.toList = (v.edit m).query.toList := by
    rw [u.toList_edit, v.toList_edit, hps]
  exact ⟨(u.edit m).wellFormed, (v.edit m).wellFormed,
    ((u.edit m).beq_iff (v.edit m)).2 ⟨hl, hps', hf⟩⟩

/-- To compare equal URLs with equal ones gives the same. -/
theorem Same.beq_congr (h : Same u v) (h' : Same w x) : (u == w) = (v == x) := by
  obtain ⟨hl, hps, hf⟩ := h.parts_eq
  obtain ⟨hl', hps', hf'⟩ := h'.parts_eq
  rw [Bool.eq_iff_iff, WellFormedUrl.beq_iff ⟨u, h.left⟩ ⟨w, h'.left⟩,
    WellFormedUrl.beq_iff ⟨v, h.right⟩ ⟨x, h'.right⟩, hl, hps, hf, hl', hps', hf']

/-- Lists of equal URLs have equal ones at every place. -/
theorem same_getElem? {us vs : List Url} (h : List.Forall₂ Same us vs) (i : Nat) :
    Option.Rel Same us[i]? vs[i]? := by
  induction h generalizing i with
  | nil => exact .none
  | cons huv _ ih =>
    cases i with
    | zero => exact .some huv
    | succ i => exact ih i

end Url

/-! ### Sessions -/

namespace Session

variable {s t : Session}

/-- The replies tell the same. -/
inductive Reply.Agree : Reply → Reply → Prop
  | refl (r : Reply) : Agree r r
  | edited {u v : Url} : u.Agree v → Agree (.edited u) (.edited v)
  | state {u v : Url} : u.Agree v → Agree (.state u) (.state v)

/-- The URLs of the sessions are equal, the saved ones as well. -/
structure Alike (s t : Session) : Prop where
  url : s.url.Same t.url
  saved : List.Forall₂ Url.Same s.saved t.saved

/-- After the same edit, or none, the replies tell the same and the URLs are equal. -/
theorem Alike.afterEdit (h : Alike s t) (x : Except TokenError Mutation) :
    (s.afterEdit (x.map s.url.edit)).1.Agree (t.afterEdit (x.map t.url.edit)).1 ∧
      Alike (s.afterEdit (x.map s.url.edit)).2 (t.afterEdit (x.map t.url.edit)).2 := by
  cases x with
  | error e => exact ⟨.refl _, h⟩
  | ok m => exact ⟨.edited (h.url.edit m).agree, h.url.edit m, h.saved⟩

/-- Sessions with equal URLs go back to equal ones. -/
theorem Alike.restore (h : Alike s t) (i : Nat) :
    (s.saved[i]?.getD s.url).Same (t.saved[i]?.getD t.url) := by
  have hi := Url.same_getElem? h.saved i
  generalize s.saved[i]? = a, t.saved[i]? = b at hi ⊢
  cases hi with
  | none => exact h.url
  | some hi => exact hi

/-- To compare with a copy gives the same in sessions with equal URLs. -/
theorem Alike.equalsSaved (h : Alike s t) (i : Nat) :
    s.saved[i]?.any (s.url == ·) = t.saved[i]?.any (t.url == ·) := by
  have hi := Url.same_getElem? h.saved i
  generalize s.saved[i]? = a, t.saved[i]? = b at hi ⊢
  cases hi with
  | none => rfl
  | some hi => exact h.url.beq_congr hi

/-- Sessions with equal URLs reply alike, and have equal URLs after the command. -/
theorem Alike.step (h : Alike s t) (c : Command) :
    (s.step c).result.1.Agree (t.step c).result.1 ∧
      Alike (s.step c).result.2 (t.step c).result.2 := by
  cases hc : c.request? with
  | some x =>
    rw [result_step_of_request hc, result_step_of_request hc]
    exact h.afterEdit x
  | none =>
    have ha := h.url.agree
    cases c with
    | edit m => cases hc
    | apply key op operand => cases hc
    | token text => cases hc
    | look key =>
      refine ⟨?_, h⟩
      change Reply.Agree (.values (s.url.get? key) (s.url.getAll key)) _
      rw [ha.get?, ha.getAll]
      exact .refl _
    | state => exact ⟨.state ha, h⟩
    | save => exact ⟨.edited ha, h.url, List.rel_append h.saved (.cons h.url .nil)⟩
    | restore i => exact ⟨.edited (h.restore i).agree, h.restore i, h.saved⟩
    | equalsSaved i =>
      refine ⟨?_, h⟩
      change Reply.Agree (.equal (s.saved[i]?.any (s.url == ·))) _
      rw [h.equalsSaved]
      exact .refl _
    | equals text =>
      rw [result_step_equals, result_step_equals]
      cases hw : Url.parse text with
      | error e => exact ⟨.refl _, h⟩
      | ok w =>
        have hb := h.url.beq_congr (.refl (Url.wellFormed_of_parse hw))
        refine ⟨?_, h⟩
        change Reply.Agree (.equal (s.url == w)) _
        rw [hb]
        exact .refl _

/-- Sessions with equal URLs reply alike to commands in turn, and have equal URLs in the end. -/
theorem Alike.run (h : Alike s t) (cs : List Command) :
    List.Forall₂ Reply.Agree (s.run cs).result.1 (t.run cs).result.1 ∧
      Alike (s.run cs).result.2 (t.run cs).result.2 := by
  induction cs generalizing s t with
  | nil => exact ⟨.nil, h⟩
  | cons c cs ih =>
    obtain ⟨hr, h'⟩ := h.step c
    obtain ⟨hrs, hcs⟩ := ih h'
    exact ⟨.cons hr hrs, hcs⟩

end Session

namespace Url

variable {s t : String} {u v : Url}

/-- Reachable URLs are equal exactly if their texts are. Edits and questions, by whatever
    commands, do not tell equal URLs apart, and leave them equal. -/
theorem Reachable.beq_iff_render_eq (hu : Reachable s u) (hv : Reachable t v) :
    ((u == v) = true ↔ u.render = v.render) ∧
      ((u == v) = true → ∀ cs : List Session.Command,
        let a := (Session.run { url := u } cs).result
        let b := (Session.run { url := v } cs).result
        List.Forall₂ Session.Reply.Agree a.1 b.1 ∧
          (a.2.url == b.2.url) = true ∧ Agree a.2.url b.2.url) := by
  refine ⟨WellFormedUrl.beq_iff_render ⟨u, hu.wellFormed⟩ ⟨v, hv.wellFormed⟩, fun h cs => ?_⟩
  have hs : Session.Alike { url := u } { url := v } :=
    ⟨⟨hu.wellFormed, hv.wellFormed, h⟩, .nil⟩
  obtain ⟨hr, hcs⟩ := hs.run cs
  exact ⟨hr, hcs.url.beq, hcs.url.agree⟩

/-- Where eight pairs are removed, a query is rebuilt. -/
theorem beq_iff_render_eq_set :
    ∃ u v, Reachable "/?a&a&a&a&a&a&a&a&b=2" u ∧ Reachable "/?b=2" v ∧ (u == v) = true ∧
      ((Session.run { url := u } [.edit (.inc "b" 1), .token "a=1"]).result.2.url ==
        (Session.run { url := v } [.edit (.inc "b" 1), .token "a=1"]).result.2.url) = true := by
  have hu : parse "/?a&a&a&a&a&a&a&a&b=2" =
      .ok ⟨⟨none, none, "/"⟩, .ofList (.replicate 8 ⟨"a", ""⟩ ++ [⟨"b", "2"⟩]), none⟩ := rfl
  have hv : parse "/?b=2" = .ok ⟨⟨none, none, "/"⟩, .ofList [⟨"b", "2"⟩], none⟩ := rfl
  have hr := Reachable.step (.start hu) (.edit (.set "a" .null))
  obtain ⟨hiff, hrun⟩ := Reachable.beq_iff_render_eq hr (.start hv)
  have h := hiff.2 (by decide)
  exact ⟨_, _, hr, .start hv, h, (hrun h _).2.1⟩

end Url

end QueryEdit
