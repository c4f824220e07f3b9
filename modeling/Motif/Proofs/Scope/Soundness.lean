import Motif.Proofs.Eval.Invariant
import Motif.Proofs.Scope.Elaborated
import Motif.Proofs.Scope.Values

/-!
# Programs that pass validation meet no undefined name

Computations that are safe for scoped nodes, in scopes that cover the names visible to them, are an invariant
of running programs (`safety`). So every number of layers of rules keeps it, and a program in which the passes
find no error does not stop at an undefined name.
-/

namespace Motif.Scope

open Eval List

def safety (host : Host) : Invariant where
  Related P x _ := Safe host P x
  Runs := Scoped
  Tests names _ template := Scoped names template
  Good := Good host
  Covers := Covers host
  Loose := False

section Safety

variable {host : Host} {names : Names} {env : Env} {n : Node}

/-! ## What scoped nodes need -/

theorem body_of_inBody {body : List Node} (h : InBody Scoped names body) : (safety host).Body names body := by
  induction h with
  | nil => trivial
  | idle h => exact ⟨.idle h, fun hruns => absurd h (hruns.resolve_right id)⟩
  | cons h _ ih => exact ⟨h, fun _ => ih⟩

theorem enters_of_scopedBody {body : Body} (h : ScopedBody names body) : (safety host).Enters names body := by
  cases body with
  | block b => exact body_of_inBody h
  | expr e => exact h

theorem loop_of_inLoop {ranges body : List Node} (h : InLoop Scoped names ranges body) :
    (safety host).Loop body names ranges := by
  induction h with
  | body hb => exact body_of_inBody hb
  | @idle _ r _ _ hr =>
    obtain ⟨i, span, k⟩ := r
    cases k with
    | range => exact absurd rfl hr
    | _ => trivial
  | range hc hg _ ih => exact ⟨hc, hg, ih⟩

theorem Scoped.children (hn : Scoped names n) (htag : n.tag ∈ plainTags) :
    ∀ c ∈ n.children, Scoped names c := by
  cases hn with
  | plain _ hc => exact hc
  | idle h =>
    have hdisjoint : ∀ t ∈ idleTags, t ∉ plainTags := by decide
    exact absurd htag (hdisjoint _ h)
  | _ => exact absurd htag (by simp [Kind.tag, plainTags])

theorem Scoped.templateOf (hn : Scoped names n) : Scoped names (templateOf n) := by
  unfold Eval.templateOf
  split
  case h_1 template hkind =>
    refine hn.children ?_ template ?_
    · simp [Node.tag, hkind, Kind.tag, plainTags]
    · simp [Node.children, hkind]
  case h_2 => exact hn

theorem Scoped.element {e : Node} (hn : Scoped names n) (htag : n.tag ∈ plainTags) (he : e ∈ n.children) :
    (safety host).Element host names e := by
  have he := hn.children htag e he
  obtain ⟨i, span, k⟩ := e
  cases k with
  | element key template =>
    have hc := he.children (of_decide_eq_true rfl)
    refine ⟨fun k hk => hc k (mem_append_left _ (Option.mem_toList.mpr hk)), fun _ _ => ?_⟩
    exact hc template (mem_append_right _ mem_cons_self)
  | _ => trivial

theorem Scoped.needs (hn : Scoped names n) : (safety host).Needs host names n := by
  obtain ⟨i, span, k⟩ := n
  have hself := hn
  cases hn with
  | idle h =>
    cases k with
    | module | range | param | importAll | importFrom | clause | doBlock | generator | await | emit => trivial
    | _ => simp [Kind.tag, idleTags] at h
  | plain h hc =>
    cases k with
    | literal | context | objectPattern | arrayPattern | element | regex => trivial
    | unary | ret | exprStmt => exact hc _ mem_cons_self
    | binary op x y | conj x y | disj x y =>
      exact ⟨hc x mem_cons_self, hc y (mem_cons_of_mem _ mem_cons_self)⟩
    | cond c x y => refine ⟨hc c mem_cons_self, hc x ?_, hc y ?_⟩ <;> simp
    | array | object => exact hc
    | call f args => exact ⟨hc f mem_cons_self, fun x hx => hc x (mem_cons_of_mem _ hx)⟩
    | pattern template =>
      refine ⟨fun _ _ => hself.templateOf, fun stamp env henv => ?_⟩
      exact .pattern hself henv.covers henv.good
    | _ => simp [Kind.tag, plainTags] at h
  | ident h => exact fun env henv => safe_lookup henv.covers henv.good h
  | member ho hp => exact ⟨ho, hp⟩
  | entry hk hv => exact ⟨hk, hv⟩
  | lambda hb => exact fun stamp env henv => .function (by simp) hb henv.covers henv.good (by simp)
  | function hg hb =>
    exact fun stamp env previous henv hprevious => .function hg hb henv.covers henv.good hprevious
  | assign hv => exact hv
  | declare htags hb => exact ⟨.inl htags, body_of_inBody hb⟩
  | loop hl => exact ⟨.inl rfl, loop_of_inLoop hl, trivial⟩
  | reduce htags ha hl => exact ⟨.inl htags, body_of_inBody ha, loop_of_inLoop hl⟩
  | exported hi htags hd =>
    refine ⟨.inl htags, hd, fun x hx env henv => safe_lookup henv.covers henv.good ?_⟩
    rcases mem_append.mp hx with hx | hx
    · obtain ⟨item, hitem, rfl⟩ := mem_map.mp hx
      exact .inr (hi item hitem)
    · exact .inl hx

/-! ## The rules in full -/

theorem safety_lawful (htrusted : Trusted host) : (safety host).Lawful host where
  pure := safe_pure
  bind := Safe.bind
  fail := safe_fail
  freshStamp := safe_freshStamp
  addExport name v _ := safe_addExport name v
  callNative hname hargs := by
    cases hname with
    | native h => exact safe_callNative htrusted h hargs
  data := .data
  regex := .regex
  function h := by
    cases h with
    | function hguard hbody hcovers hscope hprevious =>
      exact ⟨hprevious, _, ⟨hcovers, hscope⟩, hguard, enters_of_scopedBody hbody⟩
  pattern h := by
    cases h with
    | pattern hnode hcovers hscope => exact ⟨_, ⟨hcovers, hscope⟩, fun _ _ => hnode.templateOf⟩
  covers h hkept hmore x hx := hx.elim (fun hx => .inl (hmore x hx)) fun hx => (h x hx).imp_left (hkept x)
  fewer h hnames x hx := h x (hnames x hx)
  loose h := h.elim
  needs := Scoped.needs

theorem safety_step {rules rules' : Rules} (hs : (safety host).Keeps host rules rules') :
    (safety host).Keeps host (Rules.step host rules) (Rules.step host rules') where
  lawful := hs.lawful
  eval {names n env} hn henv := by
    refine hs.evalNode (fun htag => ?_) hn henv
    obtain ⟨i, span, k⟩ := n
    cases k with
    | context =>
      show Safe host (Good host) (evalNode host rules ⟨i, span, .context⟩ env)
      unfold evalNode
      dsimp only
      split
      · exact safe_getLocal _
      · exact safe_fail (by simp)
    | _ => cases htag
  exec hn henv := hs.execNode hn henv
  call hf hargs := hs.callVal hf hargs
  fits {_ template _ _ _} hn hv henv := by
    refine hs.fitsNode (fun _ _ => safe_setLocal) hn (fun htag e he => hn.element ?_ he) hv henv
    have hplain : ∀ t ∈ [Tag.objectPattern, .arrayPattern], t ∈ plainTags := by decide
    exact hplain _ htag

theorem safety_upTo (htrusted : Trusted host) (n : Nat) :
    (safety host).Keeps host (Rules.upTo host n) (Rules.upTo host n) := by
  induction n with
  | zero =>
    exact ⟨safety_lawful htrusted, fun _ _ => safe_outOfFuel, fun _ _ => safe_outOfFuel,
      fun _ _ => safe_outOfFuel, fun _ _ _ => safe_outOfFuel⟩
  | succ n ih =>
    rw [Rules.upTo_succ]
    exact safety_step ih

end Safety

end Motif.Scope
