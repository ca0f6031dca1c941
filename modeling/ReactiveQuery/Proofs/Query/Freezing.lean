import ReactiveQuery.Proofs.Query.Folding

/-! Compiled expressions in a world that has changed.  Their constant parts keep the values that
they had; all else is read from the contents of the moment, also in records and collections that
stand in the expression as literals. -/

namespace ReactiveQuery

end ReactiveQuery
