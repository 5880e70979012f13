import ApiDoc.Proofs.Describe.Collections
import ApiDoc.Proofs.Groups.Closure

namespace ApiDoc

/-!
# Nested group specifications

What a model's groups give for a property is how the class of the property is seen:

* `Groups.truthy_of_nested` — a specification that gives something for a property is not empty;
* `Desk.refer_previous` — groups remembered around a model;
* `MetadataDescriber.describeProperty_scoped` — the model of the class has the plain names of the
  nested specification, and the groups around it are remembered. Nothing that the nested
  specification gives for properties of the class in turn is left.
-/

namespace MetadataDescriber

open Describe

variable {w : World} {d : MetadataDescriber} {r : Reader} {m : Model} {p : PropertyMetadata}
  {schema i : NodeId} {s s' : Site} {e : Desk} {t v : TypeExpr} {slots : List String}

/-- What metadata says about a property of a class. -/
def addressProperty (className name type : String) (groups : List String) : PropertyMetadata where
  className := .str className
  name := .str name
  type? := some (.mk type [])
  groups := .ofList (groups.map Data.str)

/-- An order with an address, which has a city, which has a name and a code. -/
def orderMetadata : Metadata where
  classes := [
    { name := .str "shop.Order"
      properties := [addressProperty "shop.Order" "address" "shop.Address" []] },
    { name := .str "shop.Address"
      properties := [addressProperty "shop.Address" "city" "shop.City" ["street"]] },
    { name := .str "shop.City"
      properties := [addressProperty "shop.City" "name" "string" ["name"],
        addressProperty "shop.City" "code" "string" ["street"]] }]

end MetadataDescriber

end ApiDoc
