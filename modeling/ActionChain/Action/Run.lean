import ActionChain.World

/-!
What the actions do. Every action but `submit` and `proceed` hands its input on unchanged.
-/
namespace ActionChain

namespace World

variable {κ η : Type} {fixed : Fixed}

def decorate (c : String) (w : World κ η fixed) : World κ η fixed :=
  w.changeClasses fun cs => (fixed.settings.decorators.foldl (fun cs d => cs.remove d) cs).add c

/-- Decorates, then pauses unless there is nothing to wait for. -/
def showDecorator (c : String) (pause : Micros) (value : Option Response) (w : World κ η fixed) :
    World κ η fixed × Progress (World κ η fixed) :=
  let w := w.decorate c
  if pause = 0 then (w, .settled (.ok value)) else w.sleep pause value

def evaluate [Form η] (w : World κ η fixed) (b : Bound) : Json := b.value (Form.value? w.page)

end World

namespace Action

variable {κ η : Type} {fixed : Fixed}

def ofMilliseconds (n : UInt64) : Micros := n.toNat * 1000

/-- Where to proceed: the address a successful response names, or else the one written down. -/
def destination? (fallback : Option String) (input : Option Response) : Option String :=
  ((input.filter Response.isOk).bind Response.successUrl?).or fallback

def activateType : String := "activate"

def run [Form η] (react : React κ η fixed) (a : Action) : Step (World κ η fixed) := fun input w =>
  let done (w : World κ η fixed) : World κ η fixed × Progress (World κ η fixed) :=
    (w, .settled (.ok input))
  match a with
  | .disable => done (w.setDisabled true)
  | .enable => done (w.setDisabled false)
  | .addClass c => done (w.changeClasses (·.add c))
  | .removeClass c => done (w.changeClasses (·.remove c))
  | .toggleClass c => done (w.changeClasses (·.toggle c))
  | .submit data => w.submit (data.map w.evaluate)
  | .reset => done { w with page := Form.reset w.page }
  | .clearErrors => done { w with page := Form.clearErrors w.page }
  | .proceed fallback => match destination? fallback input with
    | some url => done (w.navigate react url)
    | none => (w, .settled (.error (.rejected (.error "Unable to proceed to next page"))))
  | .reload => done (w.navigate react w.element.location)
  | .emit type detail => done (w.dispatch react ⟨type, (detail.map w.evaluate).getD .null⟩).1
  | .activate args => done (w.dispatch react ⟨activateType, .array (args.map w.evaluate)⟩).1
  | .delay pause => w.sleep pause input
  | .spinner => done (w.changeClasses (·.add fixed.settings.spinnerClass))
  | .okay pause =>
    let pause := pause.getD (ofMilliseconds fixed.settings.okayDelay)
    w.showDecorator fixed.settings.okayClass pause input
  | .bummer pause =>
    let pause := pause.getD (ofMilliseconds fixed.settings.bummerDelay)
    w.showDecorator fixed.settings.bummerClass pause input
  | .intercept | .noop => done w

end Action

end ActionChain
